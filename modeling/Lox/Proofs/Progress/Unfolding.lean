import Lox.Proofs.Progress.Rules
import Lox.Proofs.Recovery.Declarations

set_option autoImplicit false

/-! # Rules that come to an end

A `Reader` does the single steps of a rule and goes on after a mistake. `Unfolds` says what a rule does
that is written down without bounds when a reader runs it, and which states it passes on the way: it
has come to an end, as it is put together from finitely many steps. A rule that loops or nests for
ever does not unfold.

The steps of a parse belong to the reader that drops the tokens it has read (`Reader.dropping`).
`Finishes` says of a parser, whose loops and nested rules are bounded by the tokens still to be read,
that the rule without bounds unfolds to just what the parser gives. It is proved of a parser from what
holds of its parts. A loop finishes if every iteration reads a token. -/

namespace Lox.Parse

open Grammar

variable {α β : Type}

/-! ## Readers -/

/-- What runs a rule, with a state of its own. -/
structure Reader (σ : Type) where
  step : {α : Type} → Step α → EStateM Failure σ α
  /-- Report the mistake that ended a declaration and go on where a statement is likely to begin. -/
  resume : Mistake → EStateM Failure σ Unit

/-- A single step of a parse. -/
def Step.run : {α : Type} → Step α → Parser α
  | _, pure a => Pure.pure a
  | _, fail problem => Parse.fail problem
  | _, peek => Parse.peek
  | _, advance => Parse.advance
  | _, atEnd => Parse.atEnd
  | _, nextIs kind => Parse.nextIs kind
  | _, takeIf test => Parse.takeIf test
  | _, freshId => Parse.freshId
  | _, reportAt token problem => Parse.reportAt token problem

/-- The reader that drops the tokens it has read. -/
def Reader.dropping : Reader State where
  step := Step.run
  resume m s := (do let _ ← peek)
    { s with rest := Parse.resume s.rest, reported := s.reported.push m }

/-! ## Unfolding -/

/-- The state in which a rule ends. -/
def stateOf {σ : Type} : EStateM.Result Failure σ α → σ
  | .ok _ s | .error _ s => s

/-- Begun in a state, a rule passes others and comes to an end. -/
inductive Unfolds {σ : Type} (R : Reader σ) : {α : Type} → Rule α → σ → List σ →
    EStateM.Result Failure σ α → Prop
  | step {α : Type} (step : Step α) (s : σ) :
      Unfolds R (.step step) s [stateOf (R.step step s)] (R.step step s)
  | bind {α β : Type} {p : Rule α} {k : α → Rule β} {s s₁ : σ} {l l' : List σ} {a : α}
      {r : EStateM.Result Failure σ β} :
      Unfolds R p s l (.ok a s₁) → Unfolds R (k a) s₁ l' r → Unfolds R (.bind p k) s (l ++ l') r
  | bindError {α β : Type} {p : Rule α} {k : α → Rule β} {s s₁ : σ} {l : List σ} {f : Failure} :
      Unfolds R p s l (.error f s₁) → Unfolds R (.bind p k) s l (.error f s₁)
  -- loops
  | stop {α : Type} {step : α → Rule (Option α)} {a : α} {s s₁ : σ} {l : List σ} :
      Unfolds R (step a) s l (.ok none s₁) → Unfolds R (.repeatFrom a step) s l (.ok a s₁)
  | again {α : Type} {step : α → Rule (Option α)} {a a' : α} {s s₁ : σ} {l l' : List σ}
      {r : EStateM.Result Failure σ α} :
      Unfolds R (step a) s l (.ok (some a') s₁) → Unfolds R (.repeatFrom a' step) s₁ l' r →
      Unfolds R (.repeatFrom a step) s (l ++ l') r
  | loopError {α : Type} {step : α → Rule (Option α)} {a : α} {s s₁ : σ} {l : List σ}
      {f : Failure} : Unfolds R (step a) s l (.error f s₁) →
      Unfolds R (.repeatFrom a step) s l (.error f s₁)
  -- mistakes are reported, and the tokens that belong to them dropped
  | read {α β : Type} {p : Rule α} {f : Option α → β} {s s₁ : σ} {l : List σ} {a : α} :
      Unfolds R p s l (.ok a s₁) → Unfolds R (.recovering p f) s l (.ok (f (some a)) s₁)
  | recovered {α β : Type} {p : Rule α} {f : Option α → β} {s s₁ s₂ : σ} {l : List σ} {m : Mistake} :
      Unfolds R p s l (.error (.mistake m) s₁) → R.resume m s₁ = .ok () s₂ →
      Unfolds R (.recovering p f) s (l ++ [s₂]) (.ok (f none) s₂)
  | stranded {α β : Type} {p : Rule α} {f : Option α → β} {s s₁ s₂ : σ} {l : List σ} {m : Mistake}
      {failure : Failure} :
      Unfolds R p s l (.error (.mistake m) s₁) → R.resume m s₁ = .error failure s₂ →
      Unfolds R (.recovering p f) s (l ++ [s₂]) (.error failure s₂)
  | lost {α β : Type} {p : Rule α} {f : Option α → β} {s s₁ : σ} {l : List σ} :
      Unfolds R p s l (.error .outOfTokens s₁) →
      Unfolds R (.recovering p f) s l (.error .outOfTokens s₁)
  -- what is behind a name
  | nested {α : Type} {name : Nested α} {s : σ} {l : List σ} {r : EStateM.Result Failure σ α} :
      Unfolds R name.body s l r → Unfolds R (.nested name) s l r

/-- A reader does the same with a rule whenever it begins in the same state. -/
theorem Unfolds.unique {σ : Type} {R : Reader σ} {rule : Rule α} {s : σ} {l l' : List σ}
    {r r' : EStateM.Result Failure σ α} (h : Unfolds R rule s l r) (h' : Unfolds R rule s l' r') :
    l = l' ∧ r = r' := by
  induction h generalizing l' with
  | step step s => cases h'; exact ⟨rfl, rfl⟩
  | bind _ _ ih ih₂ =>
    cases h' with
    | bind h h₂ =>
      obtain ⟨rfl, heq⟩ := ih h
      cases heq
      obtain ⟨rfl, rfl⟩ := ih₂ h₂
      exact ⟨rfl, rfl⟩
    | bindError h => exact nomatch (ih h).2
  | bindError _ ih =>
    cases h' with
    | bind h h₂ => exact nomatch (ih h).2
    | bindError h =>
      obtain ⟨rfl, heq⟩ := ih h
      cases heq
      exact ⟨rfl, rfl⟩
  | stop _ ih =>
    cases h' with
    | stop h =>
      obtain ⟨rfl, heq⟩ := ih h
      cases heq
      exact ⟨rfl, rfl⟩
    | again h h₂ | loopError h => exact nomatch (ih h).2
  | again _ _ ih ih₂ =>
    cases h' with
    | again h h₂ =>
      obtain ⟨rfl, heq⟩ := ih h
      cases heq
      obtain ⟨rfl, rfl⟩ := ih₂ h₂
      exact ⟨rfl, rfl⟩
    | stop h | loopError h => exact nomatch (ih h).2
  | loopError _ ih =>
    cases h' with
    | stop h | again h h₂ => exact nomatch (ih h).2
    | loopError h =>
      obtain ⟨rfl, heq⟩ := ih h
      cases heq
      exact ⟨rfl, rfl⟩
  | read _ ih | lost _ ih =>
    cases h' with
    | read h | lost h =>
      obtain ⟨rfl, heq⟩ := ih h
      cases heq <;> exact ⟨rfl, rfl⟩
    | recovered h _ | stranded h _ => exact nomatch (ih h).2
  | recovered _ hresume ih =>
    cases h' with
    | recovered h hresume' =>
      obtain ⟨rfl, heq⟩ := ih h
      cases heq
      cases hresume.symm.trans hresume'
      exact ⟨rfl, rfl⟩
    | stranded h hresume' =>
      cases (ih h).2
      exact nomatch hresume.symm.trans hresume'
    | read h | lost h => exact nomatch (ih h).2
  | stranded _ hresume ih =>
    cases h' with
    | stranded h hresume' =>
      obtain ⟨rfl, heq⟩ := ih h
      cases heq
      cases hresume.symm.trans hresume'
      exact ⟨rfl, rfl⟩
    | recovered h hresume' =>
      cases (ih h).2
      exact nomatch hresume.symm.trans hresume'
    | read h | lost h => exact nomatch (ih h).2
  | nested _ ih =>
    cases h' with
    | nested h => exact ih h

/-! ## What is passed on the way -/

theorem Step.yieldsAt (step : Step α) (s : State) : ∃ P, YieldsAt s step.run P := by
  cases step with
  | pure a => exact ⟨fun _ _ => True, .pure trivial⟩
  | fail problem => exact ⟨fun _ _ => True, yieldsAt_fail problem _⟩
  | peek => exact ⟨_, yieldsAt_peek⟩
  | advance =>
    refine ⟨fun _ _ => True, yieldsAt_peek.bind fun _ s₁ _ _ _ => ⟨?_, trivial⟩⟩
    exact ⟨List.tail_suffix _, rfl, Nat.le_refl _, #[], by simp⟩
  | atEnd => exact ⟨_, yieldsAt_atEnd⟩
  | nextIs kind => exact ⟨_, yieldsAt_nextIs kind⟩
  | takeIf test => exact ⟨_, yieldsAt_takeIf test⟩
  | freshId => exact ⟨_, yieldsAt_freshId⟩
  | reportAt token problem => exact ⟨_, yieldsAt_reportAt token problem⟩

/-- A step leads on. -/
theorem Step.leadsTo (step : Step α) {s : State} (hend : s.HasEnd) :
    s.LeadsTo (stateOf (step.run s)) := by
  obtain ⟨P, hyields⟩ := step.yieldsAt s
  have hyields := hyields hend
  cases hrun : step.run s with
  | ok a s' => exact (hrun ▸ hyields).1
  | error f s' => exact (hrun ▸ hyields).1

/-- The state in which a parse goes on after a mistake. -/
def State.resumed (m : Mistake) (s : State) : State :=
  { s with rest := resume s.rest, reported := s.reported.push m }

theorem State.leadsTo_resumed (m : Mistake) (s : State) : s.LeadsTo (s.resumed m) :=
  ⟨resume_suffix s.rest, rfl, Nat.le_refl _, #[m], by simp [resumed]⟩

theorem State.HasEnd.resume {s : State} (hend : s.HasEnd) (m : Mistake) :
    Reader.dropping.resume m s = .ok () (s.resumed m) := by
  obtain ⟨t, hpeek⟩ := ((s.leadsTo_resumed m).hasEnd hend).peek
  exact bind_of_ok hpeek

/-- The states that a rule passes lead on from each to the next, and to the one in which it ends. -/
structure Onward (s : State) (passed : List State) (last : State) : Prop where
  pairwise : (s :: passed).Pairwise State.LeadsTo
  last : ∀ s' ∈ s :: passed, s'.LeadsTo last

namespace Onward

variable {s s₁ s₂ : State} {l l' : List State}

theorem leadsTo (h : Onward s l s₁) : s.LeadsTo s₁ := h.last s List.mem_cons_self

theorem single (h : s.LeadsTo s₁) : Onward s [s₁] s₁ :=
  ⟨by simpa using h, by simpa using ⟨h, .refl s₁⟩⟩

theorem append (h : Onward s l s₁) (h' : Onward s₁ l' s₂) : Onward s (l ++ l') s₂ := by
  have hpairwise' := List.pairwise_cons.1 h'.pairwise
  constructor
  · rw [← List.cons_append, List.pairwise_append]
    exact ⟨h.pairwise, hpairwise'.2, fun a ha b hb => (h.last a ha).trans (hpairwise'.1 b hb)⟩
  · rw [← List.cons_append]
    intro a ha
    rcases List.mem_append.1 ha with ha | ha
    · exact (h.last a ha).trans h'.leadsTo
    · exact h'.last a (List.mem_cons_of_mem _ ha)

end Onward

/-- Whatever a rule does, it leads on. -/
theorem Unfolds.onward {rule : Rule α} {s : State} {l : List State}
    {r : EStateM.Result Failure State α} (h : Unfolds .dropping rule s l r) (hend : s.HasEnd) :
    Onward s l (stateOf r) := by
  induction h with
  | step step s => exact .single (step.leadsTo hend)
  | bind _ _ ih ih' | again _ _ ih ih' =>
    have h := ih hend
    exact h.append (ih' (h.leadsTo.hasEnd hend))
  | bindError _ ih | stop _ ih | loopError _ ih | read _ ih | lost _ ih => exact ih hend
  | recovered _ hresume ih =>
    have h := ih hend
    cases ((h.leadsTo.hasEnd hend).resume _).symm.trans hresume
    exact h.append (.single (State.leadsTo_resumed _ _))
  | stranded _ hresume ih =>
    exact nomatch (((ih hend).leadsTo.hasEnd hend).resume _).symm.trans hresume
  | nested _ ih => exact ih hend

/-- In a state with an end, no rule looks for a token where there is none. -/
theorem Unfolds.ne_outOfTokens {rule : Rule α} {s : State} {l : List State}
    {r : EStateM.Result Failure State α} (h : Unfolds .dropping rule s l r) (hend : s.HasEnd)
    (s' : State) : r ≠ .error .outOfTokens s' := by
  induction h with
  | @step α step s =>
    obtain ⟨P, hyields⟩ := step.yieldsAt s
    have hyields := hyields hend
    intro hrun
    rw [show step.run s = _ from hrun] at hyields
    exact hyields.2 rfl
  | bind h _ _ ih' | again h _ _ ih' => exact ih' ((h.onward hend).leadsTo.hasEnd hend)
  | bindError _ ih | loopError _ ih | lost _ ih =>
    intro heq
    cases heq
    exact ih hend rfl
  | stop _ _ | read _ _ | recovered _ _ _ => nofun
  | stranded h hresume _ =>
    exact nomatch (((h.onward hend).leadsTo.hasEnd hend).resume _).symm.trans hresume
  | nested _ ih => exact ih hend

/-! ## Rules that finish -/

theorem bind_of_error {σ : Type} {p : EStateM Failure σ α} {k : α → EStateM Failure σ β}
    {s s' : σ} {f : Failure} (h : p s = .error f s') : (p >>= k) s = .error f s' := by
  simp only [Bind.bind, EStateM.bind, h]

/-- Begun in a state with an end, a rule comes to what a parser gives there, and what this succeeds
    with satisfies `P`. -/
def Finishes (s : State) (p : Parser α) (rule : Rule α) (P : α → State → Prop) : Prop :=
  s.HasEnd → (∃ passed, Unfolds .dropping rule s passed (p s)) ∧ ∀ a s', p s = .ok a s' → P a s'

/-- There are fewer tokens left than in a state. -/
def Shorter (s : State) (_ : α) (s' : State) : Prop := s'.rest.length < s.rest.length

namespace Finishes

variable {s : State} {p : Parser α} {rule : Rule α} {k : α → Parser β} {k' : α → Rule β}
  {P : α → State → Prop} {Q : β → State → Prop}

theorem of_step (step : Step α) (hp : YieldsAt s step.run P) :
    Finishes s step.run (.step step) P :=
  fun hend => ⟨⟨_, .step step s⟩, fun _ _ hrun => (hp.of_ok hend hrun).2⟩

theorem pure {a : α} (h : P a s) : Finishes s (Pure.pure a) (Pure.pure a) P :=
  of_step (.pure a) (.pure h)

theorem bind (hp : Finishes s p rule P)
    (hk : ∀ a s₁, s.LeadsTo s₁ → P a s₁ → Finishes s₁ (k a) (k' a) Q) :
    Finishes s (p >>= k) (rule >>= k') Q := by
  intro hend
  obtain ⟨⟨l, hl⟩, hP⟩ := hp hend
  cases hrun : p s with
  | error f s₁ =>
    rw [bind_of_error hrun]
    rw [hrun] at hl
    exact ⟨⟨l, .bindError hl⟩, nofun⟩
  | ok a s₁ =>
    rw [bind_of_ok hrun]
    rw [hrun] at hl
    have hleads : s.LeadsTo s₁ := (hl.onward hend).leadsTo
    obtain ⟨⟨l', hl'⟩, hQ⟩ := hk a s₁ hleads (hP a s₁ hrun) (hleads.hasEnd hend)
    exact ⟨⟨l ++ l', .bind hl hl'⟩, hQ⟩

theorem pure_bind {a : α} (hk : Finishes s (k a) (k' a) Q) :
    Finishes s (Pure.pure a >>= k) (Pure.pure a >>= k') Q := by
  refine (pure (P := fun b s₁ => b = a ∧ s₁ = s) ⟨rfl, rfl⟩).bind fun b s₁ _ h => ?_
  obtain ⟨rfl, rfl⟩ := h
  exact hk

theorem mono {P' : α → State → Prop} (hp : Finishes s p rule P)
    (h : ∀ a s', s.LeadsTo s' → P a s' → P' a s') : Finishes s p rule P' := by
  intro hend
  obtain ⟨⟨l, hl⟩, hP⟩ := hp hend
  refine ⟨⟨l, hl⟩, fun a s' hrun => ?_⟩
  rw [hrun] at hl
  exact h a s' (hl.onward hend).leadsTo (hP a s' hrun)

theorem map {f : α → β} (hp : Finishes s p rule P) :
    Finishes s (f <$> p) (f <$> rule) fun _ _ => True :=
  hp.bind fun _ _ _ _ => .pure trivial

/-- A name finishes as what it stands for. -/
theorem nested {name : Nested α} (h : Finishes s p name.body P) : Finishes s p (.nested name) P := by
  intro hend
  obtain ⟨⟨l, hl⟩, hP⟩ := h hend
  exact ⟨⟨l, .nested hl⟩, hP⟩

/-- What has read a token has done so whatever follows. -/
theorem shorter_bind (hp : Finishes s p rule (Shorter s))
    (hk : ∀ a s₁, s₁.rest.length < s.rest.length →
      Finishes s₁ (k a) (k' a) fun _ _ => True) :
    Finishes s (p >>= k) (rule >>= k') (Shorter s) :=
  hp.bind fun a s₁ _ h => (hk a s₁ h).mono fun _ _ l _ => Nat.lt_of_le_of_lt l.length_le h

theorem after_peek {k : Token → Parser β} {k' : Token → Rule β}
    (h : ∀ t, (t.kind ≠ .endOfInput → s.rest = t :: s.rest.tail) → Finishes s (k t) (k' t) Q) :
    Finishes s (peek >>= k) (Rule.peek >>= k') Q :=
  (of_step .peek yieldsAt_peek).bind fun t _ _ ht => ht.1 ▸ h t ht.2

end Finishes

/-! ## Steps -/

section

variable {s : State}

theorem finishes_advance {t : Token} (h : s.rest = t :: s.rest.tail) :
    Finishes s advance .advance (Shorter s) :=
  .of_step .advance ((yieldsAt_advance h).mono fun _ s' _ hs => by
    rw [Shorter, hs]
    exact Nat.lt_succ_self _)

theorem finishes_fail (problem : SyntaxProblem) (P : α → State → Prop) :
    Finishes s (fail problem) (.fail problem) P :=
  .of_step (.fail problem) (yieldsAt_fail problem P)

theorem finishes_nextIs (kind : Kind) :
    Finishes s (nextIs kind) (.nextIs kind) fun _ s' => s' = s :=
  .of_step (.nextIs kind) (yieldsAt_nextIs kind)

theorem finishes_atEnd : Finishes s atEnd .atEnd fun b s' => s' = s ∧ b = s.rest.isEmpty :=
  .of_step .atEnd yieldsAt_atEnd

theorem finishes_freshId : Finishes s freshId .freshId fun _ _ => True :=
  .of_step .freshId (yieldsAt_freshId.mono fun _ _ _ _ => trivial)

theorem finishes_reportAt (token : Token) (problem : SyntaxProblem) :
    Finishes s (reportAt token problem) (.reportAt token problem) fun _ _ => True :=
  .of_step (.reportAt token problem) ((yieldsAt_reportAt token problem).mono fun _ _ _ _ => trivial)

theorem finishes_takeIf (test : Kind → Bool) : Finishes s (takeIf test) (.takeIf test)
    fun t? s' => t? ≠ none → Shorter s t? s' := by
  refine .of_step (.takeIf test) ((yieldsAt_takeIf test).mono fun t? s' _ h ht => ?_)
  rcases h with ⟨t, -, -, rfl⟩ | ⟨rfl, -⟩
  · exact Nat.lt_succ_self _
  · exact absurd rfl ht

theorem finishes_take? (kind : Kind) : Finishes s (take? kind) (.take? kind)
    fun t? s' => t? ≠ none → Shorter s t? s' :=
  finishes_takeIf kind.sameAs

theorem finishes_expect (kind : Kind) (problem : SyntaxProblem) :
    Finishes s (expect kind problem) (.expect kind problem) (Shorter s) := by
  refine (finishes_take? kind).bind fun t? s₁ _ h => ?_
  cases t? with
  | none => exact finishes_fail problem _
  | some t => exact .pure (h nofun)

/-! ## Loops -/

theorem State.moved_nil (h : s.rest = []) : s.moved s.nextId [] = s := by
  obtain ⟨rest, final, nextId, reported⟩ := s
  cases h
  rfl

/-- A loop finishes if each iteration that goes on reads a token, and none goes on at the end. -/
theorem finishes_repeatOver {step : α → Parser (Option α)} {step' : α → Rule (Option α)}
    (hend : ∀ a n, Succeeds (step a) n [] none n []) (hstep : ∀ a s₁, s.LeadsTo s₁ →
      Finishes s₁ (step a) (step' a) fun a? s₂ => a? ≠ none → Shorter s₁ a? s₂) :
    ∀ (bound : List Token) (a : α) (s₁ : State), s.LeadsTo s₁ →
      s₁.rest.length ≤ bound.length →
      Finishes s₁ (repeatOver step bound a) (.repeatFrom a step') fun _ _ => True := by
  intro bound
  induction bound with
  | nil =>
    -- no tokens are left, so the loop stops here without a bound as well
    intro a s₁ hleads hle hhas
    have hnil : s₁.rest = [] := List.length_eq_zero_iff.1 (Nat.le_zero.1 hle)
    have hrun := hend a s₁.nextId s₁ hhas
    rw [State.moved_nil hnil] at hrun
    obtain ⟨⟨l, hl⟩, -⟩ := hstep a s₁ hleads hhas
    rw [hrun] at hl
    exact ⟨⟨l, .stop hl⟩, fun _ _ _ => trivial⟩
  | cons t bound ih =>
    intro a s₁ hleads hle hhas
    obtain ⟨⟨l, hl⟩, hP⟩ := hstep a s₁ hleads hhas
    cases hrun : step a s₁ with
    | error f s₂ =>
      rw [repeatOver, bind_of_error hrun]
      rw [hrun] at hl
      exact ⟨⟨l, .loopError hl⟩, fun _ _ _ => trivial⟩
    | ok a? s₂ =>
      rw [repeatOver, bind_of_ok hrun]
      rw [hrun] at hl
      cases a? with
      | none => exact ⟨⟨l, .stop hl⟩, fun _ _ _ => trivial⟩
      | some a' =>
        have hleads' : s₁.LeadsTo s₂ := (hl.onward hhas).leadsTo
        have hless : s₂.rest.length < s₁.rest.length := hP _ s₂ hrun (Option.some_ne_none a')
        obtain ⟨⟨l', hl'⟩, -⟩ := ih a' s₂ (hleads.trans hleads')
          (Nat.le_of_lt_succ (Nat.lt_of_lt_of_le hless hle)) (hleads'.hasEnd hhas)
        exact ⟨⟨l ++ l', .again hl hl'⟩, fun _ _ _ => trivial⟩

theorem finishes_repeatFrom {step : α → Parser (Option α)} {step' : α → Rule (Option α)} (a : α)
    (hend : ∀ a n, Succeeds (step a) n [] none n []) (hstep : ∀ a s₁, s.LeadsTo s₁ →
      Finishes s₁ (step a) (step' a) fun a? s₂ => a? ≠ none → Shorter s₁ a? s₂) :
    Finishes s (repeatFrom a step) (.repeatFrom a step') fun _ _ => True :=
  finishes_repeatOver hend hstep s.rest a s (.refl s) (Nat.le_refl _)

theorem finishes_commaList (tooMany : SyntaxProblem) {item : Parser α} {item' : Rule α}
    (hitem : ∀ s₁, s.LeadsTo s₁ → Finishes s₁ item item' fun _ _ => True) :
    Finishes s (commaList tooMany item) (.commaList tooMany item') fun _ _ => True := by
  refine (hitem s (.refl s)).bind fun first s₁ l₁ _ => ?_
  refine (finishes_repeatFrom #[first] (fun items n => ?_) fun items s₂ l₂ => ?_).bind
    fun _ _ _ _ => .pure trivial
  · exact (succeeds_take?_none rfl (by simp)).bind (.pure none)
  refine (finishes_take? .comma).bind fun comma s₃ l₃ h => ?_
  cases comma with
  | none => exact .pure fun h => absurd rfl h
  | some comma =>
    have hless : s₃.rest.length < s₂.rest.length := h nofun
    have hpush : ∀ s₄, s₃.LeadsTo s₄ →
        Finishes s₄ (do return some (items.push (← item))) (do return some (items.push (← item')))
          fun items? s₅ => items? ≠ none → Shorter s₂ items? s₅ := by
      intro s₄ l₄
      refine (hitem s₄ (l₁.trans (l₂.trans (l₃.trans l₄)))).bind fun a s₅ l₅ _ => .pure fun _ => ?_
      exact Nat.lt_of_le_of_lt (l₄.trans l₅).length_le hless
    dsimp only
    split
    · exact .bind (.after_peek fun t _ => finishes_reportAt t tooMany) fun _ s₄ l₄ _ => hpush s₄ l₄
    · exact hpush s₃ (.refl s₃)

end

end Lox.Parse
