import Lox.Proofs.Grammar.Completeness.Expression
import Lox.Proofs.Progress.Unfolding

set_option autoImplicit false

/-! # Expressions come to an end

Every rule of expressions reads a token before it runs the rule that it is given for whole
expressions, and whatever it succeeds with has used up a token. So it is enough that whole expressions
finish where fewer tokens are left, and expressions nested in each other finish by induction on the
number of tokens. -/

namespace Lox.Parse

open Grammar

variable {α : Type} {s : State}

/-! ## Rules -/

section

variable {inner : Parser Expr} {n : Nat}
  (hinner : ∀ s, s.rest.length < n → Finishes s inner .expression fun _ _ => True)

include hinner

theorem finishes_primary (hle : s.rest.length ≤ n) :
    Finishes s (primary inner) .primary (Shorter s) := by
  refine .after_peek fun token hnext => ?_
  have hadvance : token.kind ≠ .endOfInput → Finishes s advance .advance (Shorter s) :=
    fun hkind => finishes_advance (hnext hkind)
  cases hkind : token.kind with
  | falseKw | trueKw | nilKw | number | string =>
    exact (hadvance (by simp [hkind])).shorter_bind fun _ _ _ => .pure trivial
  | thisKw | identifier =>
    refine (hadvance (by simp [hkind])).shorter_bind fun _ _ _ => ?_
    exact finishes_freshId.bind fun _ _ _ _ => .pure trivial
  | superKw =>
    refine (hadvance (by simp [hkind])).shorter_bind fun _ _ _ => ?_
    refine (finishes_expect _ _).bind fun _ _ _ _ => ?_
    refine (finishes_expect _ _).bind fun _ _ _ _ => ?_
    exact finishes_freshId.bind fun _ _ _ _ => .pure trivial
  | leftParen =>
    refine (hadvance (by simp [hkind])).shorter_bind fun _ s₁ hless => ?_
    refine (hinner s₁ (Nat.lt_of_lt_of_le hless hle)).bind fun _ _ _ _ => ?_
    exact (finishes_expect _ _).bind fun _ _ _ _ => .pure trivial
  | _ => exact finishes_fail _ _

theorem finishes_finishCall (hless : s.rest.length < n) (callee : Expr) :
    Finishes s (finishCall inner callee) (.finishCall callee) fun _ _ => True := by
  refine (finishes_nextIs _).bind fun b s₁ _ h => ?_
  subst h
  have hclose : ∀ es s₂, Finishes s₂
      (do return .call callee (← expect .rightParen .noParenAfterArguments) es)
      (do return .call callee (← Rule.expect .rightParen .noParenAfterArguments) es)
      fun (_ : Expr) _ => True :=
    fun es s₂ => (finishes_expect _ _).bind fun _ _ _ _ => .pure trivial
  cases b with
  | true => exact .pure_bind (hclose [] s₁)
  | false =>
    exact (finishes_commaList _ fun s₂ l => hinner s₂ (Nat.lt_of_le_of_lt l.length_le hless)).bind
      fun es s₂ _ _ => hclose es s₂

theorem finishes_call (hle : s.rest.length ≤ n) :
    Finishes s (call inner) .call (Shorter s) := by
  refine (finishes_primary hinner hle).shorter_bind fun e s₁ hless => ?_
  refine finishes_repeatFrom e (fun e n => stop_call (by rintro _ ⟨⟩)) fun e s₂ l₂ => ?_
  have hle₂ : s₂.rest.length ≤ n :=
    Nat.le_trans l₂.length_le (Nat.le_trans (Nat.le_of_lt hless) hle)
  refine .after_peek fun token hnext => ?_
  cases hkind : token.kind with
  | leftParen =>
    have hadvance := finishes_advance (hnext (by simp [hkind]))
    refine Finishes.mono (hadvance.shorter_bind fun _ s₃ hless₃ => ?_) fun _ _ _ h _ => h
    have hless₃ : s₃.rest.length < n := Nat.lt_of_lt_of_le hless₃ hle₂
    exact (finishes_finishCall hinner hless₃ e).bind fun _ _ _ _ => .pure trivial
  | dot =>
    have hadvance := finishes_advance (hnext (by simp [hkind]))
    refine Finishes.mono (hadvance.shorter_bind fun _ _ _ => ?_) fun _ _ _ h _ => h
    exact (finishes_expect _ _).bind fun _ _ _ _ => .pure trivial
  | _ => exact .pure fun h => absurd rfl h

theorem finishes_unary (hle : s.rest.length ≤ n) :
    Finishes s (unary inner) .unary (Shorter s) := by
  refine (finishes_repeatFrom [] (fun operators n => ?_) fun operators s₁ _ => ?_).bind
    fun operators s₁ l₁ _ => ?_
  · exact (succeeds_takeIf_none (by simp)).bind (.pure none)
  · refine (finishes_takeIf _).bind fun operator s₂ _ h => .pure fun hne => ?_
    exact h fun heq => hne (by rw [heq]; rfl)
  · have hcall := finishes_call hinner (Nat.le_trans l₁.length_le hle)
    refine (hcall.shorter_bind fun _ _ _ => .pure trivial).mono fun _ _ _ h => ?_
    exact Nat.lt_of_lt_of_le h l₁.length_le

omit hinner in
theorem finishes_chain {operand : Parser Expr} {operand' : Rule Expr} {level : Level}
    (hoperand : ∀ s, s.rest.length ≤ n → Finishes s operand operand' (Shorter s))
    (hle : s.rest.length ≤ n) :
    Finishes s (level.chain operand) (.chain operand' level) (Shorter s) := by
  refine (hoperand s hle).shorter_bind fun e s₁ hless =>
    finishes_repeatFrom e (fun left n => ?_) fun left s₂ l₂ => ?_
  · exact (succeeds_takeIf_none (by simp)).bind (.pure none)
  refine (finishes_takeIf _).bind fun operator s₃ l₃ h => ?_
  cases operator with
  | none => exact .pure fun h => absurd rfl h
  | some operator =>
    have hle₃ : s₃.rest.length ≤ n :=
      Nat.le_trans l₃.length_le (Nat.le_trans l₂.length_le (Nat.le_trans (Nat.le_of_lt hless) hle))
    exact (hoperand s₃ hle₃).bind fun _ _ l₄ _ => .pure fun _ =>
      Nat.lt_of_le_of_lt l₄.length_le (h nofun)

omit hinner in
theorem finishes_chains (ls : List Level) {operand : Parser Expr} {operand' : Rule Expr}
    (hoperand : ∀ s, s.rest.length ≤ n → Finishes s operand operand' (Shorter s)) :
    ∀ s, s.rest.length ≤ n →
      Finishes s (ls.foldl Level.chain operand) (ls.foldl Rule.chain operand') (Shorter s) := by
  induction ls generalizing operand operand' with
  | nil => exact hoperand
  | cons level ls ih => exact ih fun _ => finishes_chain hoperand

theorem finishes_assignment (hle : s.rest.length ≤ n) :
    Finishes s (assignment inner) .assignment (Shorter s) := by
  have hoperation : Finishes s (operation inner) .operation (Shorter s) :=
    finishes_chains levels (fun _ => finishes_unary hinner) s hle
  refine hoperation.shorter_bind fun target s₁ hless => ?_
  refine (finishes_take? _).bind fun equals s₂ l₂ _ => ?_
  cases equals with
  | none => exact .pure trivial
  | some equals =>
    have hless₂ : s₂.rest.length < n :=
      Nat.lt_of_le_of_lt l₂.length_le (Nat.lt_of_lt_of_le hless hle)
    refine (hinner s₂ hless₂).bind fun value s₃ _ _ => ?_
    cases target with
    | var => exact finishes_freshId.bind fun _ _ _ _ => .pure trivial
    | get => exact .pure trivial
    | _ => exact (finishes_reportAt equals _).bind fun _ _ _ _ => .pure trivial

end

/-! ## At the end -/

theorem fail_eq {t : Token} (problem : SyntaxProblem) (h : peek s = .ok t s) :
    (fail problem : Parser α) s = .error (.mistake ⟨t, problem⟩) s :=
  bind_of_ok h

theorem peek_of_nil {t : Token} (hfinal : s.final = some t) (hnil : s.rest = []) :
    peek s = .ok t s := by
  simp only [peek, State.next?, hnil, hfinal, List.head?_nil, Option.none_or]

theorem chains_of_error {f : Failure} (ls : List Level) {operand : Parser Expr}
    (h : operand s = .error f s) : ls.foldl Level.chain operand s = .error f s := by
  induction ls generalizing operand with
  | nil => exact h
  | cons l ls ih => exact ih (bind_of_error h)

/-- Where no token is left, there is no expression. -/
theorem assignment_of_nil (inner : Parser Expr) (hend : s.HasEnd) (hnil : s.rest = []) :
    assignment inner s = fail .noExpression s := by
  obtain ⟨t, hfinal, hkind⟩ := hend
  have hpeek : peek s = .ok t s := peek_of_nil hfinal hnil
  rw [fail_eq _ hpeek]
  have hprimary : primary inner s = .error (.mistake ⟨t, .noExpression⟩) s := by
    unfold primary
    rw [bind_of_ok hpeek, hkind]
    exact fail_eq _ hpeek
  have hoperators : repeatFrom [] operatorStep s = .ok [] s := by
    unfold repeatFrom
    rw [hnil]
    rfl
  have hunary : unary inner s = .error (.mistake ⟨t, .noExpression⟩) s := by
    rw [unary_eq, bind_of_ok hoperators]
    exact bind_of_error (bind_of_error hprimary)
  exact bind_of_error (chains_of_error levels hunary)

/-! ## Whole expressions -/

theorem finishes_expressionWithin (bound : List Token) : ∀ s : State,
    s.rest.length ≤ bound.length → Finishes s (expressionWithin bound) .expression (Shorter s) := by
  induction bound with
  | nil =>
    intro s hle hend
    have hnil : s.rest = [] := List.length_eq_zero_iff.1 (Nat.le_zero.1 hle)
    -- nothing is nested at the end, so whatever is put for what is nested finishes
    have hinner : ∀ s : State, s.rest.length < 0 →
        Finishes s (expressionWithin []) .expression fun _ _ => True :=
      fun _ h => absurd h (Nat.not_lt_zero _)
    have h : Finishes s (assignment _) .expression (Shorter s) :=
      (finishes_assignment hinner hle).nested
    have h := h hend
    rwa [assignment_of_nil _ hend hnil] at h
  | cons t bound ih =>
    intro s hle
    have hinner : ∀ s : State, s.rest.length < bound.length + 1 →
        Finishes s (expressionWithin bound) .expression fun _ _ => True :=
      fun s h => (ih s (Nat.le_of_lt_succ h)).mono fun _ _ _ _ => trivial
    exact (finishes_assignment hinner hle).nested

theorem finishes_expression : Finishes s expression .expression (Shorter s) :=
  finishes_expressionWithin s.rest s (Nat.le_refl _)

end Lox.Parse
