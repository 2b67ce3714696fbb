import Lox.Proofs.Progress.Indices

set_option autoImplicit false

/-! # A parse stays within its tokens and comes to an end

Where a parse stands is said by an index into its tokens (`State.StandsAt`), no greater than that of
the first end token. The index never becomes less, every declaration that does not begin at the end
makes it greater, and a program has been read where it is that of the end (`parse_finishes`). What
stands behind the first end token has no effect.

All of this holds as well of the reader that keeps its tokens and moves the index itself
(`FinishesByIndex`). -/

namespace Lox.Parse

open Grammar

variable {tokens : List Token} {firstId : RefId} {s s' : State} {i j : Nat}

/-! ## Whole inputs -/

theorem Declares.rest_eq_nil {ds : List Stmt} (h : Declares s ds s') : s'.rest = [] := by
  induction h with
  | done hrest => exact hrest
  | next _ _ _ ih => exact ih

theorem program_finishes (tokens : List Token) (firstId : RefId) : ∃ passed statements s,
    Unfolds .dropping .declarations (.start tokens firstId) passed (.ok statements s) ∧
      program tokens firstId = ⟨statements, s.errors, s.nextId, false⟩ ∧
      Forward tokens 0 passed ∧ s.StandsAt tokens (firstEnd tokens) := by
  have hend := hasEnd_start tokens firstId
  obtain ⟨statements, s, hdeclares⟩ := exists_declares hend
  have hrun := hdeclares.declarations_eq hend
  obtain ⟨⟨passed, hpassed⟩, -⟩ := finishes_declarations hend
  rw [hrun] at hpassed
  obtain ⟨j, -, hj⟩ := standsAt_start.leadsTo (hpassed.onward hend).leadsTo
  obtain rfl := hj.of_nil hdeclares.rest_eq_nil
  refine ⟨passed, statements, s, hpassed, ?_, hpassed.forward standsAt_start, hj⟩
  unfold program
  rw [hrun]

theorem singleExpression_finishes (tokens : List Token) (firstId : RefId) :
    (∃ passed, Unfolds .dropping .onlyExpression (.start tokens firstId) passed
        (onlyExpression (.start tokens firstId)) ∧ Forward tokens 0 passed) ∧
      (singleExpression tokens firstId).ranOut = false := by
  have hend := hasEnd_start tokens firstId
  obtain ⟨⟨passed, hpassed⟩, -⟩ := finishes_onlyExpression hend
  refine ⟨⟨passed, hpassed, hpassed.forward standsAt_start⟩, ?_⟩
  have hne := hpassed.ne_outOfTokens hend
  unfold singleExpression
  cases hrun : onlyExpression (.start tokens firstId) with
  | ok e s => rfl
  | error failure s =>
    cases failure with
    | mistake m => rfl
    | outOfTokens => exact absurd hrun (hne s)

/-- Where no end token is next, a declaration comes to an end behind at least one more token. -/
theorem State.StandsAt.declaration (h : s.StandsAt tokens i) (hlt : i < firstEnd tokens) :
    (∃ passed result, Unfolds .dropping .declaration s passed result) ∧
      ∀ passed result, Unfolds .dropping .declaration s passed result →
        Forward tokens i passed ∧ ∃ d s' j, result = .ok d s' ∧ s'.StandsAt tokens j ∧ i < j := by
  have hne : s.rest ≠ [] := fun hnil => Nat.ne_of_lt hlt (h.of_nil hnil)
  obtain ⟨d, s', hrun, hleads, hless⟩ := declaration_ok h.hasEnd hne
  obtain ⟨⟨passed, hpassed⟩, -⟩ := finishes_declaration h.hasEnd
  rw [hrun] at hpassed
  refine ⟨⟨passed, _, hpassed⟩, fun passed' result h' => ?_⟩
  -- it does this however it was come to, as it does only one thing in a state
  obtain ⟨-, rfl⟩ := hpassed.unique h'
  obtain ⟨j, -, hj⟩ := h.leadsTo hleads
  exact ⟨h'.forward h, d, s', j, rfl, hj, h.lt_of_length hj hless⟩

/-! ## By index -/

/-- What a single expression comes to that is read by index. -/
def Place.outcome : EStateM.Result Failure Place Expr → Outcome (Option Expr)
  | .ok e p => ⟨some e, p.errors, p.nextId, false⟩
  | .error (.mistake m) p => ⟨none, p.errors ++ [m.error], p.nextId, false⟩
  | .error .outOfTokens p => ⟨none, p.errors, p.nextId, true⟩

theorem Place.outcome_eq {result : EStateM.Result Failure Place Expr}
    (h : EndAlike Eq (Place.Shows tokens) Eq result (onlyExpression (.start tokens firstId))) :
    singleExpression tokens firstId = Place.outcome result := by
  unfold singleExpression
  generalize onlyExpression (.start tokens firstId) = shown at h
  cases h with
  | ok he hp =>
    subst he
    simp only [Place.outcome, hp.errors, hp.nextId]
  | @error failure _ _ _ he hp =>
    subst he
    cases failure <;> simp only [Place.outcome, hp.errors, hp.nextId]

/-- A parse by index comes to an end: of a program, of a single expression, and of a declaration that
begins before the first end token. The index never becomes less and never passes that of the first
end token. It is this index in the end of a program, and it becomes greater in a declaration. Whatever
stands behind the first end token, every rule does the same. -/
structure FinishesByIndex (tokens : List Token) (firstId : RefId) : Prop where
  program : ∃ passed statements p,
    Unfolds (.indexed tokens) .declarations (.start firstId) passed (.ok statements p) ∧
      Parse.program tokens firstId = ⟨statements, p.errors, p.nextId, false⟩ ∧
      Place.Ascending tokens 0 passed ∧ p.current = firstEnd tokens
  expression : ∃ passed result,
    Unfolds (.indexed tokens) .onlyExpression (.start firstId) passed result ∧
      singleExpression tokens firstId = Place.outcome result ∧ Place.Ascending tokens 0 passed
  declaration : ∀ p : Place, p.current < firstEnd tokens →
    (∃ passed result, Unfolds (.indexed tokens) .declaration p passed result) ∧
      ∀ passed result, Unfolds (.indexed tokens) .declaration p passed result →
        Place.Ascending tokens p.current passed ∧
          ∃ d p', result = .ok d p' ∧ p'.current ≤ firstEnd tokens ∧ p.current < p'.current
  behind : ∀ (behind : List Token) {α : Type} (rule : Rule α) (p : Place) (passed : List Place)
    (result : EStateM.Result Failure Place α), p.current ≤ firstEnd tokens →
    (Unfolds (.indexed (continuedBy tokens behind)) rule p passed result ↔
      Unfolds (.indexed tokens) rule p passed result)

theorem Place.declaration_finishes {p : Place} (hlt : p.current < firstEnd tokens) :
    (∃ passed result, Unfolds (.indexed tokens) .declaration p passed result) ∧
      ∀ passed result, Unfolds (.indexed tokens) .declaration p passed result →
        Place.Ascending tokens p.current passed ∧
          ∃ d p', result = .ok d p' ∧ p'.current ≤ firstEnd tokens ∧ p.current < p'.current := by
  obtain ⟨s, hs⟩ := Place.Shows.exists_state (Nat.le_of_lt hlt)
  obtain ⟨⟨passed, result, hpassed⟩, hall⟩ := hs.standsAt.declaration hlt
  obtain ⟨hforward, d, s', j, rfl, hj, hless⟩ := hall passed result hpassed
  obtain ⟨places, result', hplaces, hshows, ⟨rfl, hs'⟩⟩ := hpassed.indexed hs
  obtain rfl := hj.unique hs'.standsAt
  refine ⟨⟨places, _, hplaces⟩, fun places' result' h => ?_⟩
  obtain ⟨rfl, rfl⟩ := hplaces.unique h
  exact ⟨Place.ascending_of_forward hforward hshows, _, _, rfl, hj.le, hless⟩

theorem finishesByIndex (tokens : List Token) (firstId : RefId) :
    FinishesByIndex tokens firstId where
  program := by
    obtain ⟨passed, statements, s, hpassed, hprogram, hforward, hat⟩ :=
      program_finishes tokens firstId
    obtain ⟨places, result, hplaces, hshows, ⟨rfl, hs⟩⟩ := hpassed.indexed (.start tokens firstId)
    refine ⟨places, _, _, hplaces, ?_, Place.ascending_of_forward hforward hshows,
      hs.standsAt.unique hat⟩
    rw [hprogram, hs.errors, hs.nextId]
  expression := by
    obtain ⟨⟨passed, hpassed, hforward⟩, -⟩ := singleExpression_finishes tokens firstId
    obtain ⟨places, result, hplaces, hshows, hend⟩ := hpassed.indexed (.start tokens firstId)
    exact ⟨places, result, hplaces, Place.outcome_eq hend,
      Place.ascending_of_forward hforward hshows⟩
  declaration _ hlt := Place.declaration_finishes hlt
  behind behind _ _ _ _ _ hle := Unfolds.indexed_continuedBy behind hle

/-! ## The whole -/

/-- **A parse always comes to an end and stays within its tokens.** Of any tokens, without bounds on
loops and nested rules, a program and a single expression are read through states in which the parse
stands no further than the first end token and never goes back. A program is read where the parse
stands at that token. A declaration that begins before it reads one token at least, also if it fails.
What stands behind the first end token makes no difference. The same holds where the tokens are kept
and only an index moves. -/
theorem parse_finishes (tokens : List Token) (firstId : RefId) :
    (∃ passed statements s,
      Unfolds .dropping .declarations (.start tokens firstId) passed (.ok statements s) ∧
      program tokens firstId = ⟨statements, s.errors, s.nextId, false⟩ ∧
      Forward tokens 0 passed ∧ s.StandsAt tokens (firstEnd tokens)) ∧
    ((∃ passed, Unfolds .dropping .onlyExpression (.start tokens firstId) passed
        (onlyExpression (.start tokens firstId)) ∧ Forward tokens 0 passed) ∧
      (singleExpression tokens firstId).ranOut = false) ∧
    (∀ s i, s.StandsAt tokens i → i < firstEnd tokens →
      (∃ passed result, Unfolds .dropping .declaration s passed result) ∧
      ∀ passed result, Unfolds .dropping .declaration s passed result →
        Forward tokens i passed ∧ ∃ d s' j, result = .ok d s' ∧ s'.StandsAt tokens j ∧ i < j) ∧
    (∀ behind,
      program (continuedBy tokens behind) firstId = program tokens firstId ∧
      singleExpression (continuedBy tokens behind) firstId = singleExpression tokens firstId) ∧
    FinishesByIndex tokens firstId := by
  refine ⟨program_finishes tokens firstId, singleExpression_finishes tokens firstId,
    fun s i h hlt => h.declaration hlt, fun behind => ?_, finishesByIndex tokens firstId⟩
  unfold program singleExpression
  rw [start_continuedBy]
  exact ⟨rfl, rfl⟩

/-- A brace that closes nothing, an end in the middle, and a word behind it. -/
def strayBrace : List Token :=
  [⟨.rightBrace, "\x7d", 1⟩, ⟨.endOfInput, "", 1⟩, ⟨.printKw, "print", 2⟩]

/-- The declaration that fails at the brace drops it, and the parse stands at the end in the middle. -/
theorem declaration_strayBrace :
    (State.start strayBrace 0).StandsAt strayBrace 0 ∧ 0 < firstEnd strayBrace ∧
    (∃ passed d s' j, Unfolds .dropping .declaration (.start strayBrace 0) passed (.ok d s') ∧
      Forward strayBrace 0 passed ∧ s'.StandsAt strayBrace j ∧ 0 < j) ∧
    ∃ passed d p, Unfolds (.indexed strayBrace) .declaration (.start 0) passed (.ok d p) ∧
      Place.Ascending strayBrace 0 passed ∧ p.current = firstEnd strayBrace := by
  have hlt : 0 < firstEnd strayBrace := by decide
  obtain ⟨-, -, hdeclaration, -, hindexed⟩ := parse_finishes strayBrace 0
  obtain ⟨⟨passed, result, hpassed⟩, hall⟩ := hdeclaration (.start strayBrace 0) 0 standsAt_start hlt
  obtain ⟨hforward, d, s', j, rfl, hj, hless⟩ := hall passed result hpassed
  refine ⟨standsAt_start, hlt, ⟨passed, d, s', j, hpassed, hforward, hj, hless⟩, ?_⟩
  obtain ⟨⟨places, result, hplaces⟩, hall⟩ := hindexed.declaration (.start 0) hlt
  obtain ⟨hascending, d, p, rfl, hle, hless⟩ := hall places result hplaces
  have hone : firstEnd strayBrace = 1 := by decide
  exact ⟨places, d, p, hplaces, hascending, Nat.le_antisymm hle (hone ▸ hless)⟩

end Lox.Parse
