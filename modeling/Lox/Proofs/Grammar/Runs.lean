import Lox.Proofs.Grammar.Steps

set_option autoImplicit false

/-! # Runs of parse steps that succeed

`Succeeds p n ts a n' ts'` says that a rule, run where the tokens `ts` are to be read, reads a tree,
leaves `ts'` and reports nothing, whatever was reported before. A loop is followed step by step
(`LoopsTo`) until it stops. -/

namespace Lox.Parse

variable {α β : Type}

/-! ## Runs -/

/-- A state with other tokens and another next identity. -/
def State.moved (s : State) (n : RefId) (ts : List Token) : State :=
  { s with rest := ts, nextId := n }

theorem bind_of_ok {σ : Type} {p : EStateM Failure σ α} {k : α → EStateM Failure σ β} {s s' : σ}
    {a : α} (h : p s = .ok a s') : (p >>= k) s = k a s' := by
  simp only [Bind.bind, EStateM.bind, h]

theorem bind_eq_bind {p p' : Parser α} {k : α → Parser β} {s s' : State} (h : p s = p' s') :
    (p >>= k) s = (p' >>= k) s' := by
  simp only [Bind.bind, EStateM.bind, h]

theorem map_of_ok {p : Parser α} {f : α → β} {s s' : State} {a : α} (h : p s = .ok a s') :
    (f <$> p) s = .ok (f a) s' := by
  simp only [Functor.map, EStateM.map, h]

/-- From some tokens on, a rule reads a tree up to others, whatever else the state holds. -/
def Succeeds (p : Parser α) (n : RefId) (ts : List Token) (a : α) (n' : RefId)
    (ts' : List Token) : Prop :=
  ∀ s : State, s.HasEnd → p (s.moved n ts) = .ok a (s.moved n' ts')

variable {n n₁ n' : RefId} {t : Token} {ts ts₁ ts' : List Token}

theorem Succeeds.bind {p : Parser α} {k : α → Parser β} {a : α} {b : β}
    (hp : Succeeds p n ts a n₁ ts₁) (hk : Succeeds (k a) n₁ ts₁ b n' ts') :
    Succeeds (p >>= k) n ts b n' ts' :=
  fun s hs => (bind_of_ok (hp s hs)).trans (hk s hs)

theorem Succeeds.map {p : Parser α} {f : α → β} {a : α} (hp : Succeeds p n ts a n' ts') :
    Succeeds (f <$> p) n ts (f a) n' ts' :=
  fun s hs => map_of_ok (hp s hs)

theorem Succeeds.pure (a : α) : Succeeds (Pure.pure a) n ts a n ts := fun _ _ => rfl

theorem succeeds_peek : Succeeds peek n (t :: ts) t n (t :: ts) := fun _ _ => rfl

/-- A step that looks at the next token first finds one. -/
theorem Succeeds.after_peek {p : Parser α} {a : α} (h : Succeeds p n ts a n' ts') :
    Succeeds (peek >>= fun _ => p) n ts a n' ts' := by
  rintro s ⟨final, hfinal, hkind⟩
  have hpeek : peek (s.moved n ts) = .ok (ts.headD final) (s.moved n ts) := by
    cases ts with
    | nil => simp [peek, State.next?, State.moved, hfinal]
    | cons t ts => rfl
  rw [bind_of_ok hpeek]
  exact h s ⟨final, hfinal, hkind⟩

theorem succeeds_advance : Succeeds advance n (t :: ts) () n ts := fun _ _ => rfl

theorem succeeds_freshId : Succeeds freshId n ts n (n + 1) ts := fun _ _ => rfl

theorem succeeds_atEnd : Succeeds atEnd n ts ts.isEmpty n ts := .after_peek fun _ _ => rfl

theorem succeeds_takeIf {test : Kind → Bool} (h : test t.kind = true) :
    Succeeds (takeIf test) n (t :: ts) (some t) n ts :=
  .after_peek fun s _ => by simp only [State.moved, h, if_true]

theorem succeeds_takeIf_none {test : Kind → Bool} (h : ∀ t ∈ ts.head?, test t.kind = false) :
    Succeeds (takeIf test) n ts none n ts := by
  refine .after_peek fun s _ => ?_
  cases ts with
  | nil => rfl
  | cons t ts => simp [State.moved, h t rfl]

theorem succeeds_take? {kind : Kind} (h : t.kind = kind) :
    Succeeds (take? kind) n (t :: ts) (some t) n ts :=
  succeeds_takeIf (by rw [h]; exact Kind.sameAs_self kind)

theorem succeeds_take?_none {kind : Kind} (hk : kind.isPlain = true)
    (h : ∀ t ∈ ts.head?, t.kind ≠ kind) : Succeeds (take? kind) n ts none n ts :=
  succeeds_takeIf_none fun t ht => Bool.eq_false_iff.2 fun hs => h t ht (Kind.eq_of_sameAs hk hs)

theorem succeeds_expect {kind : Kind} {problem : SyntaxProblem} (h : t.kind = kind) :
    Succeeds (expect kind problem) n (t :: ts) t n ts :=
  (succeeds_take? h).bind (.pure t)

theorem succeeds_nextIs {kind : Kind} (h : t.kind = kind) :
    Succeeds (nextIs kind) n (t :: ts) true n (t :: ts) := by
  subst h
  have hsame := Kind.sameAs_self t.kind
  refine .after_peek fun s _ => ?_
  show EStateM.Result.ok (t.kind.sameAs t.kind) _ = _
  rw [hsame]

theorem succeeds_nextIs_not {kind : Kind} (hk : kind.isPlain = true)
    (h : ∀ t ∈ ts.head?, t.kind ≠ kind) : Succeeds (nextIs kind) n ts false n ts := by
  refine .after_peek fun s _ => ?_
  cases ts with
  | nil => rfl
  | cons t ts =>
    have hne : kind.sameAs t.kind = false :=
      Bool.eq_false_iff.2 fun hs => h t rfl (Kind.eq_of_sameAs hk hs)
    show EStateM.Result.ok (kind.sameAs t.kind) _ = _
    rw [hne]

/-! ## Loops -/

/-- A rule that ends with a loop gets somewhere within it, with enough steps left. -/
def LoopsTo (p : Parser α) (step : α → Parser (Option α)) (n : RefId) (ts : List Token) (a : α)
    (n' : RefId) (ts' : List Token) : Prop :=
  ∃ bound : List Token, ts'.length ≤ bound.length ∧ ∀ s : State, s.HasEnd →
    p (s.moved n ts) = repeatOver step bound a (s.moved n' ts')

variable {p : Parser α} {step : α → Parser (Option α)} {a a' : α}

theorem LoopsTo.start {bound : List Token} (h : ts.length ≤ bound.length) :
    LoopsTo (repeatOver step bound a) step n ts a n ts :=
  ⟨bound, h, fun _ _ => rfl⟩

theorem Succeeds.loop {q : Parser β} {b : β} {f : β → α} (h : Succeeds q n ts b n' ts') :
    LoopsTo (q >>= fun b => repeatFrom (f b) step) step n ts (f b) n' ts' :=
  ⟨ts', Nat.le_refl _, fun s hs => bind_of_ok (h s hs)⟩

theorem LoopsTo.again (h : LoopsTo p step n ts a n₁ (t :: ts₁))
    (hstep : Succeeds (step a) n₁ (t :: ts₁) (some a') n' ts') (hl : ts'.length ≤ ts₁.length) :
    LoopsTo p step n ts a' n' ts' := by
  obtain ⟨bound, hbound, h⟩ := h
  cases bound with
  | nil => exact absurd hbound (by simp)
  | cons u bound =>
    have hbound : ts₁.length ≤ bound.length := Nat.le_of_succ_le_succ hbound
    exact ⟨bound, Nat.le_trans hl hbound, fun s hs => (h s hs).trans (bind_of_ok (hstep s hs))⟩

theorem LoopsTo.stop (h : LoopsTo p step n ts a n' ts')
    (hstop : Succeeds (step a) n' ts' none n' ts') : Succeeds p n ts a n' ts' := by
  obtain ⟨bound, -, h⟩ := h
  intro s hs
  rw [h s hs]
  cases bound with
  | nil => rfl
  | cons u bound => exact bind_of_ok (hstop s hs)

/-- The first step of a loop. -/
theorem Succeeds.loop_first {bound : List Token} {u : Token} {n₂ : RefId} {ts₂ : List Token} {b : α}
    (hstep : Succeeds (step a) n ts (some a') n₁ ts₁)
    (h : LoopsTo (repeatOver step bound a') step n₁ ts₁ b n₂ ts₂) :
    LoopsTo (repeatOver step (u :: bound) a) step n ts b n₂ ts₂ := by
  obtain ⟨rest, hrest, h⟩ := h
  exact ⟨rest, hrest, fun s hs => (bind_of_ok (hstep s hs)).trans (h s hs)⟩

/-- The first step of a loop that something follows. -/
theorem Succeeds.loop_bind {bound : List Token} {u : Token} {k : α → Parser β} {b : β}
    (hstep : Succeeds (step a) n ts (some a') n₁ ts₁)
    (h : Succeeds (repeatOver step bound a' >>= k) n₁ ts₁ b n' ts') :
    Succeeds (repeatOver step (u :: bound) a >>= k) n ts b n' ts' := by
  intro s hs
  rw [← h s hs]
  exact bind_eq_bind (bind_of_ok (hstep s hs))

end Lox.Parse
