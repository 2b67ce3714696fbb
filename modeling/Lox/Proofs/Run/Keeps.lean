import Lox.Proofs.Run.Sound

set_option autoImplicit false

/-! # Steps that keep the invariant

`Keeps K μ x Q` says of a step that takes notes: from the moment `μ`, if it is sound, it leads to a
sound moment again, its result is as `Q` says, and if it stops, it does so for a reason that is to be
expected. Most steps of the machine change nothing that matters (`Aside`). -/

namespace Lox

open Noted

variable {K : Site → Prop} {μ μ' : Moment} {α β : Type}

/-! ## The current scope -/

namespace Moment

/-- The moment in another scope. -/
def inChain (μ : Moment) (chain : Chain) : Moment :=
  { μ with machine := { μ.machine with chain } }

theorem grows_inChain (μ : Moment) (chain : Chain) : μ.Grows (μ.inChain chain) :=
  ⟨fun _ h => h, Nat.le_refl _, fun _ _ h => h, fun _ _ _ _ h => h⟩

/-- The invariant does not depend on the current scope. -/
theorem Sound.inChain (h : μ.Sound K) (chain : Chain) : (μ.inChain chain).Sound K :=
  h.renew (fun _ h => h) rfl rfl rfl h.right

end Moment

/-! ## Rules -/

/-- Why a run may stop: not in a state that was meant to be impossible, and for a `this` that is not
    bound only where the program has one. -/
structure Stop.Expected (K : Site → Prop) (stop : Stop) : Prop where
  possible : stop ≠ .impossible
  this : ∀ t, stop = .error (.runtime t (.undefinedVariable "this")) →
    ∃ site, K site ∧ site.reference.token = t

theorem Stop.Expected.mono {K K' : Site → Prop} {stop : Stop} (h : stop.Expected K)
    (hK : ∀ site, K site → K' site) : stop.Expected K' :=
  ⟨h.possible, fun t ht => (h.this t ht).imp fun _ hsite => ⟨hK _ hsite.1, hsite.2⟩⟩

/-- Any other error may be expected. -/
theorem Stop.expected_runtime {K : Site → Prop} {token : Token} {problem : RuntimeProblem}
    (h : problem ≠ .undefinedVariable "this") :
    Stop.Expected K (.error (.runtime token problem)) :=
  ⟨nofun, fun _ ht => by cases ht; exact absurd rfl h⟩

theorem Stop.expected_output {K : Site → Prop} (problem : OutputProblem) :
    Stop.Expected K (.error (.output problem)) := ⟨nofun, nofun⟩

theorem Stop.expected_outOfFuel {K : Site → Prop} : Stop.Expected K .outOfFuel := ⟨nofun, nofun⟩

/-- What a step keeps, and what it gives. -/
def Keeps (K : Site → Prop) (μ : Moment) (x : Noting α) (Q : α → Moment → Prop) : Prop :=
  μ.Sound K →
    match x μ with
    | .ok a μ' => μ.Leads μ' ∧ μ'.Sound K ∧ Q a μ'
    | .error stop μ' => μ.Leads μ' ∧ μ'.Sound K ∧ stop.Expected K

namespace Keeps

variable {x x' : Noting α} {Q Q' : α → Moment → Prop}

theorem congr (h : Keeps K μ x' Q) (hx : x μ = x' μ) : Keeps K μ x Q := by
  unfold Keeps
  rw [hx]
  exact h

theorem of_ok {a : α} (hx : x μ = .ok a μ') (hl : μ.Leads μ') (hs : μ.Sound K → μ'.Sound K)
    (hQ : μ.Sound K → Q a μ') : Keeps K μ x Q := by
  intro h
  rw [hx]
  exact ⟨hl, hs h, hQ h⟩

theorem pure {a : α} (h : Q a μ) : Keeps K μ (Pure.pure a) Q := fun hs => ⟨.refl μ, hs, h⟩

theorem throw {stop : Stop} (h : stop.Expected K) : Keeps K μ (throw stop) Q :=
  fun hs => ⟨.refl μ, hs, h⟩

theorem bind {k : α → Noting β} {P : β → Moment → Prop} (hx : Keeps K μ x Q)
    (hk : ∀ a μ', μ.Leads μ' → μ'.Sound K → Q a μ' → Keeps K μ' (k a) P) :
    Keeps K μ (x >>= k) P := by
  intro hs
  have hx := hx hs
  simp only [Bind.bind, EStateM.bind]
  cases hrun : x μ with
  | error stop μ₁ =>
    rw [hrun] at hx
    exact hx
  | ok a μ₁ =>
    rw [hrun] at hx
    obtain ⟨hl, hs₁, hQ⟩ := hx
    have hk := hk a μ₁ hl hs₁ hQ hs₁
    show match k a μ₁ with
      | .ok b μ' => μ.Leads μ' ∧ μ'.Sound K ∧ P b μ'
      | .error stop μ' => μ.Leads μ' ∧ μ'.Sound K ∧ stop.Expected K
    cases hrun' : k a μ₁ with
    | ok b μ₂ =>
      rw [hrun'] at hk
      exact ⟨hl.trans hk.1, hk.2⟩
    | error stop μ₂ =>
      rw [hrun'] at hk
      exact ⟨hl.trans hk.1, hk.2⟩

theorem get {k : Moment → Noting β} {P : β → Moment → Prop} (h : Keeps K μ (k μ) P) :
    Keeps K μ (MonadState.get >>= k) P := h

theorem mono (hx : Keeps K μ x Q) (h : ∀ a μ', μ.Leads μ' → μ'.Sound K → Q a μ' → Q' a μ') :
    Keeps K μ x Q' := by
  intro hs
  have hx := hx hs
  cases hrun : x μ with
  | ok a μ' =>
    rw [hrun] at hx
    exact ⟨hx.1, hx.2.1, h a μ' hx.1 hx.2.1 hx.2.2⟩
  | error stop μ' =>
    rw [hrun] at hx
    exact hx

/-- However a step in another scope ends, it ends in the scope from which it was run. -/
theorem within {chain : Chain} {P : α → Moment → Prop} (h : Keeps K (μ.inChain chain) x P)
    (hP : ∀ a μ' chain, P a μ' → Q a (μ'.inChain chain)) :
    Keeps K μ (Noted.within chain x) Q := by
  intro hs
  have hx := h (hs.inChain chain)
  unfold Noted.within
  change match (match x (μ.inChain chain) with
    | .ok a μ' => EStateM.Result.ok a (μ'.inChain μ.machine.chain)
    | .error stop μ' => .error stop (μ'.inChain μ.machine.chain)) with
    | .ok a μ' => μ.Leads μ' ∧ μ'.Sound K ∧ Q a μ'
    | .error stop μ' => μ.Leads μ' ∧ μ'.Sound K ∧ stop.Expected K
  have hback : ∀ {μ'}, (μ.inChain chain).Leads μ' → μ.Leads (μ'.inChain μ.machine.chain) :=
    fun hl => ⟨((μ.grows_inChain chain).trans hl.toGrows).trans (Moment.grows_inChain _ _), rfl,
      hl.distances⟩
  cases hrun : x (μ.inChain chain) with
  | ok a μ' =>
    rw [hrun] at hx
    obtain ⟨hl, hs', hPa⟩ := hx
    exact ⟨hback hl, hs'.inChain _, hP _ _ _ hPa⟩
  | error stop μ' =>
    rw [hrun] at hx
    obtain ⟨hl, hs', hne⟩ := hx
    exact ⟨hback hl, hs'.inChain _, hne⟩

theorem mapM {f : β → Noting α} {P : α → Moment → Prop} {bs : List β}
    (hP : ∀ a μ μ', P a μ → μ.Leads μ' → P a μ')
    (h : ∀ b ∈ bs, ∀ μ', μ.Leads μ' → Keeps K μ' (f b) P) :
    Keeps K μ (bs.mapM f) fun as μ' => ∀ a ∈ as, P a μ' := by
  induction bs generalizing μ with
  | nil =>
    rw [List.mapM_nil]
    exact .pure nofun
  | cons b bs ih =>
    rw [List.mapM_cons]
    refine (h b List.mem_cons_self μ (.refl μ)).bind fun a μ₁ hl _ ha => ?_
    refine (ih fun b hb μ' hl' => h b (List.mem_cons_of_mem _ hb) μ' (hl.trans hl')).bind
      fun as μ₂ hl' _ has => ?_
    refine .pure fun a' ha' => ?_
    rcases List.mem_cons.1 ha' with rfl | ha'
    · exact hP _ _ _ ha hl'
    · exact has a' ha'

end Keeps

/-! ## Steps of the machine -/

theorem lift_bind (y : Eval α) (k : α → Eval β) :
    lift (y >>= k) = lift y >>= fun a => lift (k a) := by
  funext μ
  simp only [lift, Bind.bind, EStateM.bind]
  cases y μ.machine <;> rfl

theorem Keeps.lift_get {k : Machine → Noting β} {Q : β → Moment → Prop}
    (h : Keeps K μ (k μ.machine) Q) : Keeps K μ (lift MonadState.get >>= k) Q := h

/-- A step of the machine that changes output and clock at most. -/
def Aside (y : Eval α) (P : α → Prop) : Prop :=
  ∀ m, ∃ output clock,
    match y m with
    | .ok a m' => m' = { m with output, clock } ∧ P a
    | .error stop m' => m' = { m with output, clock } ∧ stop.Expected fun _ => False

namespace Aside

variable {y : Eval α} {P : α → Prop}

theorem pure {a : α} (h : P a) : Aside (Pure.pure a) P := fun m => ⟨m.output, m.clock, rfl, h⟩

theorem raise (token : Token) (problem : RuntimeProblem)
    (h : problem ≠ .undefinedVariable "this") :
    Aside (Eval.raise token problem : Eval α) P :=
  fun m => ⟨m.output, m.clock, rfl, Stop.expected_runtime h⟩

theorem bind {Q : β → Prop} {k : α → Eval β} (hy : Aside y P) (hk : ∀ a, P a → Aside (k a) Q) :
    Aside (y >>= k) Q := by
  intro m
  obtain ⟨output, clock, hy⟩ := hy m
  simp only [Bind.bind, EStateM.bind]
  cases hrun : y m with
  | error stop m' =>
    rw [hrun] at hy
    exact ⟨output, clock, hy⟩
  | ok a m' =>
    rw [hrun] at hy
    obtain ⟨rfl, ha⟩ := hy
    obtain ⟨output', clock', hk⟩ := hk a ha { m with output, clock }
    exact ⟨output', clock', hk⟩

/-- What is set aside does not matter to the invariant. -/
theorem keeps (hy : Aside y P) : Keeps K μ (lift y) fun a _ => P a := by
  intro hs
  obtain ⟨output, clock, hy⟩ := hy μ.machine
  have hl : μ.Leads { μ with machine := { μ.machine with output, clock } } :=
    ⟨⟨fun _ h => h, Nat.le_refl _, fun _ _ h => h, fun _ _ _ _ h => h⟩, rfl, rfl⟩
  have hs' : Moment.Sound K { μ with machine := { μ.machine with output, clock } } :=
    hs.leads hl (fun _ _ _ h => .inl h) (fun _ _ _ h => .inl h) (fun _ h => .inl h) hs.frames
      hs.identities
  unfold lift
  cases hrun : y μ.machine with
  | ok a m' =>
    rw [hrun] at hy
    obtain ⟨rfl, ha⟩ := hy
    exact ⟨hl, hs', ha⟩
  | error stop m' =>
    rw [hrun] at hy
    obtain ⟨rfl, hne⟩ := hy
    exact ⟨hl, hs', hne.mono fun _ h => h.elim⟩

end Aside

theorem keeps_raise (token : Token) (problem : RuntimeProblem) (Q : α → Moment → Prop)
    (h : problem ≠ .undefinedVariable "this") :
    Keeps K μ (lift (Eval.raise token problem)) Q :=
  fun hs => ⟨.refl μ, hs, Stop.expected_runtime h⟩

/-- What is looked for is found, unless it is a `this` that nothing is known of. -/
theorem keeps_orUndefined {name : Token} {o : Option α}
    (h : o = none → name.lexeme = "this" → ∃ site, K site ∧ site.reference.token = name) :
    Keeps K μ (lift (Eval.orUndefined name o)) fun a _ => o = some a := by
  cases o with
  | some a => exact .of_ok rfl (.refl μ) id fun _ => rfl
  | none =>
    refine fun hs => ⟨.refl μ, hs, Stop.noConfusion, fun t ht => ?_⟩
    injection ht with ht
    injection ht with ht hthis
    injection hthis with hthis
    exact ht ▸ h rfl hthis

/-- A variable of a program is not called `this`. -/
theorem keeps_orUndefined_chosen {name : Token} (hname : Chosen name.lexeme) (o : Option α) :
    Keeps K μ (lift (Eval.orUndefined name o)) fun a _ => o = some a :=
  keeps_orUndefined fun _ h => absurd h hname.1

/-- A value that is no function, class or object. -/
def Value.Simple : Value → Prop
  | .nil | .bool _ | .number _ | .string _ | .native _ => True
  | _ => False

theorem Value.Simple.fits {v : Value} (h : v.Simple) : v.Fits K μ := by
  cases v <;> trivial

theorem Literal.simple_toValue (l : Literal) : l.toValue.Simple := by
  cases l <;> trivial

theorem aside_applyUnary (operator : Token) (v : Value) :
    Aside (applyUnary operator v) Value.Simple := by
  unfold applyUnary
  split <;> first | exact .pure trivial | exact .raise _ _ (by simp)

theorem simple_of_arithmetic? {kind : Kind} {a b : Float} {v : Value}
    (h : arithmetic? kind a b = some v) : v.Simple := by
  unfold arithmetic? at h
  split at h <;> cases h <;> trivial

theorem aside_applyBinary (operator : Token) (a b : Value) :
    Aside (applyBinary operator a b) Value.Simple := by
  unfold applyBinary
  split
  · exact .pure trivial
  · exact .pure trivial
  · exact .raise _ _ (by simp)
  · exact .pure trivial
  · exact .pure trivial
  · split
    · next hv => exact .pure (simple_of_arithmetic? hv)
    · exact .raise _ _ (by simp)
  · exact .raise _ _ (by simp)

theorem aside_write (chunk : String) : Aside (Eval.write chunk) fun _ => True := by
  intro m
  unfold Eval.write
  by_cases h : m.output.accepts chunk
  · refine ⟨m.output.append chunk, m.clock, ?_⟩
    simp only [Eval.get_bind, h]
    exact ⟨rfl, trivial⟩
  · refine ⟨m.output, m.clock, ?_⟩
    simp only [Eval.get_bind, h]
    exact ⟨rfl, Stop.expected_output _⟩

theorem aside_printLine (text : String) : Aside (Eval.printLine text) fun _ => True :=
  (aside_write text).bind fun _ _ => aside_write "\n"

theorem aside_flush : Aside Eval.flush fun _ => True := by
  intro m
  refine ⟨m.output, m.clock, ?_⟩
  unfold Eval.flush
  cases h : m.output.flushFails <;>
    simp only [Eval.get_bind, h]
  · exact ⟨rfl, trivial⟩
  · exact ⟨rfl, Stop.expected_output _⟩

theorem aside_readClock : Aside Eval.readClock Value.Simple :=
  fun m => ⟨m.output, { m.clock with reads := m.clock.reads + 1 }, rfl, trivial⟩

end Lox
