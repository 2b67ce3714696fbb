import Lox.Proofs.Grammar.Steps

set_option autoImplicit false

/-! # A parse in another setting

A rule that stops at a semicolon does not see what stands behind it, and no rule sees what was
reported before it. So it does the same in every setting: with other mistakes reported before, with
tokens behind those that it reads, and with another end (`Agrees`). This is shown here of the steps
of a parse, of its loops and of lists with commas.

Loops and nested rules are bounded by the tokens still to be read, of which there are more where
something stands behind. The bounds make no difference as every iteration uses up a token. -/

namespace Lox.Parse

variable {α β : Type}

/-! ## Settings -/

/-- What may stand around a part of the input. -/
structure Setting where
  /-- What was reported before. -/
  reported : Array Mistake
  /-- The tokens behind it. -/
  behind : List Token
  /-- The end of the whole input. -/
  final : Option Token

/-- A state, amid a setting. -/
def State.amid (c : Setting) (s : State) : State where
  rest := s.rest ++ c.behind
  final := c.final
  nextId := s.nextId
  reported := c.reported ++ s.reported

/-- Tokens of which the last is a semicolon, and no other. -/
inductive UpToSemicolon : List Token → Prop
  | last {t : Token} : t.kind = .semicolon → UpToSemicolon [t]
  | cons {t : Token} {ts : List Token} : t.kind ≠ .semicolon → UpToSemicolon ts →
      UpToSemicolon (t :: ts)

/-- There is a token, and behind it there are some up to a semicolon unless it is the semicolon. -/
theorem UpToSemicolon.exists_cons {tokens : List Token} (h : UpToSemicolon tokens) :
    ∃ t ts, tokens = t :: ts ∧ (t.kind ≠ .semicolon → UpToSemicolon ts) := by
  cases h with
  | last hkind => exact ⟨_, [], rfl, fun hne => absurd hkind hne⟩
  | cons _ h => exact ⟨_, _, rfl, fun _ => h⟩

/-- A setting that is no different from where the next token is looked for: nothing stands behind,
    and the end is the same, or there is a semicolon that is still to be read. -/
def Setting.Suits (c : Setting) (s : State) : Prop :=
  c.behind = [] ∧ c.final = s.final ∨ UpToSemicolon s.rest

/-- The tokens still to be read have become fewer, where this matters. -/
def Setting.Fewer (c : Setting) (s s' : State) : Prop :=
  c.behind ≠ [] → s'.rest.length < s.rest.length

variable {c : Setting} {s s' : State}

namespace Setting.Suits

/-- If a setting has tokens behind, there is a semicolon before them. -/
theorem upToSemicolon (h : c.Suits s) (hbehind : c.behind ≠ []) : UpToSemicolon s.rest :=
  h.resolve_left fun h => hbehind h.1

theorem head? (h : c.Suits s) : (s.amid c).rest.head? = s.rest.head? := by
  rcases h with ⟨hbehind, -⟩ | hrest
  · simp [State.amid, hbehind]
  · obtain ⟨t, ts, heq, -⟩ := hrest.exists_cons
    simp [State.amid, heq]

/-- The same token is next. -/
theorem next? (h : c.Suits s) : (s.amid c).next? = s.next? := by
  rw [State.next?, h.head?, State.next?]
  rcases h with ⟨-, hfinal⟩ | hrest
  · rw [State.amid, hfinal]
  · obtain ⟨t, ts, heq, -⟩ := hrest.exists_cons
    simp [heq]

/-- A token that is not the semicolon can be read: there is one, if something stands behind. -/
theorem tail (h : c.Suits s) {t : Token} (hnext : s.next? = some t) (hkind : t.kind ≠ .semicolon) :
    c.Suits { s with rest := s.rest.tail } ∧
      (s.amid c).rest.tail = s.rest.tail ++ c.behind ∧
      c.Fewer s { s with rest := s.rest.tail } := by
  rcases h with ⟨hbehind, hfinal⟩ | hrest
  · exact ⟨.inl ⟨hbehind, hfinal⟩, by simp [State.amid, hbehind], fun h => absurd hbehind h⟩
  · obtain ⟨u, us, heq, hmore⟩ := hrest.exists_cons
    obtain rfl : u = t := by simpa [State.next?, heq] using hnext
    simp only [Suits, State.amid, Fewer, heq, List.tail_cons, List.cons_append, List.length_cons]
    exact ⟨.inr (hmore hkind), trivial, fun _ => Nat.lt_succ_self _⟩

end Setting.Suits

/-! ## Rules -/

/-- What a rule comes to amid a setting: it still suits, as the semicolon has not been read. -/
structure Setting.Passes (c : Setting) (s s' : State) : Prop where
  suits : c.Suits s'
  rest : s'.rest.length ≤ s.rest.length
  final : s'.final = s.final

/-- In a setting that suits, a rule does what another does without it: it gives the same or fails
    with the same, amid the setting. -/
def Agrees (c : Setting) (s : State) (p p' : Parser α) (P : α → State → Prop) : Prop :=
  c.Suits s →
    match p s with
    | .ok a s' => p' (s.amid c) = .ok a (s'.amid c) ∧ c.Passes s s' ∧ P a s'
    | .error failure s' => p' (s.amid c) = .error failure (s'.amid c) ∧ c.Passes s s'

theorem Setting.Suits.passes (h : c.Suits s) : c.Passes s s := ⟨h, Nat.le_refl _, rfl⟩

namespace Agrees

variable {p p' : Parser α} {k k' : α → Parser β} {P : α → State → Prop} {Q : β → State → Prop}
  {a : α}

theorem pure (h : P a s) : Agrees c s (Pure.pure a) (Pure.pure a) P :=
  fun hs => ⟨rfl, hs.passes, h⟩

theorem throw (failure : Failure) :
    Agrees c s (MonadExcept.throw failure : Parser α) (MonadExcept.throw failure) P :=
  fun hs => ⟨rfl, hs.passes⟩

theorem bind (hp : Agrees c s p p' P)
    (hk : ∀ a s', s'.rest.length ≤ s.rest.length → P a s' → Agrees c s' (k a) (k' a) Q) :
    Agrees c s (p >>= k) (p' >>= k') Q := by
  intro hs
  have hp := hp hs
  simp only [Bind.bind, EStateM.bind]
  cases hrun : p s with
  | error failure s₁ =>
    rw [hrun] at hp
    rw [hp.1]
    exact ⟨rfl, hp.2⟩
  | ok a s₁ =>
    rw [hrun] at hp
    obtain ⟨heq, ⟨hs₁, hle, hfinal⟩, ha⟩ := hp
    rw [heq]
    have hk := hk a s₁ hle ha hs₁
    dsimp only
    cases hrest : k a s₁ with
    | error failure s₂ =>
      rw [hrest] at hk
      exact ⟨hk.1, hk.2.suits, Nat.le_trans hk.2.rest hle, hk.2.final.trans hfinal⟩
    | ok b s₂ =>
      rw [hrest] at hk
      obtain ⟨heq', hpass, hb⟩ := hk
      exact ⟨heq', ⟨hpass.suits, Nat.le_trans hpass.rest hle, hpass.final.trans hfinal⟩, hb⟩

theorem mono {P' : α → State → Prop} (hp : Agrees c s p p' P) (h : ∀ a s', P a s' → P' a s') :
    Agrees c s p p' P' := by
  intro hs
  have hp := hp hs
  cases hrun : p s with
  | error failure s₁ =>
    rw [hrun] at hp
    exact hp
  | ok a s₁ =>
    rw [hrun] at hp
    exact ⟨hp.1, hp.2.1, h a s₁ hp.2.2⟩

theorem map {f : α → β} (hp : Agrees c s p p' P) :
    Agrees c s (f <$> p) (f <$> p') fun _ _ => True :=
  hp.bind fun _ _ _ _ => .pure trivial

end Agrees

/-! ## Steps -/

theorem agrees_peek : Agrees c s peek peek fun t s' => s' = s ∧ s.next? = some t := by
  intro hs
  unfold peek
  rw [hs.next?]
  cases hnext : s.next? with
  | none => exact ⟨rfl, hs.passes⟩
  | some t => exact ⟨rfl, hs.passes, rfl, rfl⟩

/-- A rule that looks at the next token first. -/
theorem Agrees.after_peek {k k' : Token → Parser β} {Q : β → State → Prop}
    (h : ∀ t, s.next? = some t → Agrees c s (k t) (k' t) Q) :
    Agrees c s (peek >>= k) (peek >>= k') Q :=
  agrees_peek.bind fun t _ _ ht => ht.1 ▸ h t ht.2

theorem agrees_advance {t : Token} (hnext : s.next? = some t) (hkind : t.kind ≠ .semicolon) :
    Agrees c s advance advance fun _ s' => c.Fewer s s' := by
  refine .after_peek fun _ _ hs => ?_
  obtain ⟨hs', htail, hfewer⟩ := hs.tail hnext hkind
  refine ⟨?_, ⟨hs', (List.tail_suffix _).length_le, rfl⟩, hfewer⟩
  show EStateM.Result.ok () { s.amid c with rest := (s.amid c).rest.tail } = _
  rw [htail]
  rfl

theorem agrees_fail (problem : SyntaxProblem) {P : α → State → Prop} :
    Agrees c s (fail problem : Parser α) (fail problem) P :=
  .after_peek fun _ _ => .throw _

theorem agrees_reportAt (token : Token) (problem : SyntaxProblem) :
    Agrees c s (reportAt token problem) (reportAt token problem) fun _ s' => s'.rest = s.rest := by
  refine fun hs => ⟨?_, ⟨hs, Nat.le_refl _, rfl⟩, rfl⟩
  show EStateM.Result.ok () _ = _
  simp [State.amid]

theorem agrees_report (problem : SyntaxProblem) :
    Agrees c s (report problem) (report problem) fun _ s' => s'.rest = s.rest :=
  .after_peek fun t _ => agrees_reportAt t problem

theorem agrees_freshId : Agrees c s freshId freshId fun _ s' => s'.rest = s.rest :=
  fun hs => ⟨rfl, ⟨hs, Nat.le_refl _, rfl⟩, rfl⟩

theorem agrees_nextIs (kind : Kind) :
    Agrees c s (nextIs kind) (nextIs kind) fun _ s' => s' = s := by
  refine .after_peek fun _ _ hs => ⟨?_, hs.passes, rfl⟩
  show EStateM.Result.ok (((s.amid c).rest.head?.map _).getD false) _ = _
  rw [hs.head?]

/-- A token that is read is not the semicolon if this does not pass the test. -/
theorem agrees_takeIf {test : Kind → Bool} (htest : test .semicolon = false) :
    Agrees c s (takeIf test) (takeIf test) fun t s' =>
      (t = none → s' = s) ∧ (t ≠ none → c.Fewer s s') := by
  refine .after_peek fun _ _ hs => ?_
  have hhead := hs.head?
  rcases hrest : s.rest with _ | ⟨t, ts⟩
  · rw [hrest] at hhead
    rw [List.head?_eq_none_iff.1 hhead]
    exact ⟨rfl, hs.passes, fun _ => rfl, fun h => absurd rfl h⟩
  · have hamid : (s.amid c).rest = t :: (ts ++ c.behind) := by
      rw [State.amid, hrest]
      rfl
    rw [hamid]
    dsimp only
    cases hpass : test t.kind with
    | false => exact ⟨rfl, hs.passes, fun _ => rfl, fun h => absurd rfl h⟩
    | true =>
      -- the token passes the test, so it is not the semicolon, and this is still to be read
      have hnext : s.next? = some t := by simp [State.next?, hrest]
      have hkind : t.kind ≠ .semicolon := by
        intro h
        rw [h, htest] at hpass
        cases hpass
      obtain ⟨hs', -, hfewer⟩ := hs.tail hnext hkind
      rw [hrest] at hs' hfewer
      exact ⟨rfl, ⟨hs', hrest ▸ Nat.le_succ _, rfl⟩, nofun, fun _ => hfewer⟩

theorem agrees_take? {kind : Kind} (hkind : kind.sameAs .semicolon = false) :
    Agrees c s (take? kind) (take? kind) fun t s' =>
      (t = none → s' = s) ∧ (t ≠ none → c.Fewer s s') :=
  agrees_takeIf hkind

theorem agrees_expect {kind : Kind} (hkind : kind.sameAs .semicolon = false)
    (problem : SyntaxProblem) :
    Agrees c s (expect kind problem) (expect kind problem) fun _ s' => c.Fewer s s' := by
  refine (agrees_take? hkind).bind fun t s' _ ht => ?_
  cases t with
  | none => exact agrees_fail problem
  | some t => exact .pure (ht.2 nofun)

/-! ## Loops -/

theorem Setting.Fewer.trans_le {s₁ s₂ s₃ : State} (h : c.Fewer s₁ s₂)
    (hle : s₃.rest.length ≤ s₂.rest.length) : c.Fewer s₁ s₃ :=
  fun hbehind => Nat.lt_of_le_of_lt hle (h hbehind)

/-- The tokens still to be read are no more than a bound, where this matters. -/
def Setting.AtMost (c : Setting) (s : State) (bound : List Token) : Prop :=
  c.behind ≠ [] → s.rest.length ≤ bound.length

theorem Setting.AtMost.mono {bound : List Token} (h : c.AtMost s bound)
    (hle : s'.rest.length ≤ s.rest.length) : c.AtMost s' bound :=
  fun hbehind => Nat.le_trans hle (h hbehind)

theorem Setting.AtMost.fewer {bound : List Token} {t : Token} (h : c.AtMost s (t :: bound))
    (hfewer : c.Fewer s s') : c.AtMost s' bound :=
  fun hbehind => Nat.le_of_lt_succ (Nat.lt_of_lt_of_le (hfewer hbehind) (h hbehind))

/-- Where something stands behind, a bound is never used up. -/
theorem Setting.AtMost.behind_eq_nil (h : c.AtMost s []) (hs : c.Suits s) : c.behind = [] := by
  refine Classical.byContradiction fun hbehind => ?_
  obtain ⟨t, ts, heq, -⟩ := (hs.upToSemicolon hbehind).exists_cons
  have hle := h hbehind
  rw [heq] at hle
  exact Nat.not_succ_le_zero _ hle

theorem agrees_repeatOver {step step' : α → Parser (Option α)}
    (hstep : ∀ a s₁, s₁.rest.length ≤ s.rest.length → Agrees c s₁ (step a) (step' a)
      fun a? s₂ => a? ≠ none → c.Fewer s₁ s₂) :
    ∀ (bound : List Token) (a : α) (s₁ : State), s₁.rest.length ≤ s.rest.length →
      c.AtMost s₁ bound → Agrees c s₁ (repeatOver step bound a)
        (repeatOver step' (bound ++ c.behind) a) fun _ _ => True := by
  intro bound
  induction bound with
  | nil =>
    -- where the bound is used up nothing stands behind, so the other loop ends here as well
    intro a s₁ _ hmost hs
    rw [hmost.behind_eq_nil hs]
    exact Agrees.pure (P := fun _ _ => True) trivial hs
  | cons t bound ih =>
    intro a s₁ hle hmost
    refine (hstep a s₁ hle).bind fun a? s₂ hle₂ h => ?_
    cases a? with
    | none => exact .pure trivial
    | some a' => exact ih a' s₂ (Nat.le_trans hle₂ hle) (hmost.fewer (h nofun))

theorem agrees_repeatFrom {step step' : α → Parser (Option α)} (a : α)
    (hstep : ∀ a s₁, s₁.rest.length ≤ s.rest.length → Agrees c s₁ (step a) (step' a)
      fun a? s₂ => a? ≠ none → c.Fewer s₁ s₂) :
    Agrees c s (repeatFrom a step) (repeatFrom a step') fun _ _ => True :=
  agrees_repeatOver hstep s.rest a s (Nat.le_refl _) fun _ => Nat.le_refl _

theorem agrees_commaList (tooMany : SyntaxProblem) {item item' : Parser α}
    (hitem : ∀ s₁, s₁.rest.length ≤ s.rest.length → Agrees c s₁ item item' fun _ _ => True) :
    Agrees c s (commaList tooMany item) (commaList tooMany item') fun _ _ => True := by
  refine (hitem s (Nat.le_refl _)).bind fun first s₁ hle₁ _ => ?_
  refine (agrees_repeatFrom #[first] fun items s₂ hle₂ => ?_).bind fun _ _ _ _ => .pure trivial
  refine (agrees_take? rfl).bind fun comma s₃ hle₃ h => ?_
  cases comma with
  | none => exact .pure fun h => absurd rfl h
  | some comma =>
    have hfewer := h.2 nofun
    have hpush : ∀ s₄ : State, s₄.rest.length ≤ s₃.rest.length →
        Agrees c s₄ (do return some (items.push (← item))) (do return some (items.push (← item')))
          fun items? s₅ => items? ≠ none → c.Fewer s₂ s₅ := by
      intro s₄ hle₄
      have hle : s₄.rest.length ≤ s.rest.length :=
        Nat.le_trans hle₄ (Nat.le_trans hle₃ (Nat.le_trans hle₂ hle₁))
      exact (hitem s₄ hle).bind fun a s₅ hle₅ _ =>
        .pure fun _ => hfewer.trans_le (Nat.le_trans hle₅ hle₄)
    dsimp only
    split
    · exact (agrees_report tooMany).bind fun _ s₄ hle₄ _ => hpush s₄ hle₄
    · exact hpush s₃ (Nat.le_refl _)

end Lox.Parse
