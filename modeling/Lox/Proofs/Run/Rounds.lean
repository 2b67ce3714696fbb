import Lox.Evaluate

set_option autoImplicit false

/-! # One round of the interpreter

What an expression or a statement comes to, if it is known what its parts come to. With the
interpreter itself for the parts, and one step less of fuel, a round is the interpreter again
(`evaluate_succ`, `execute_succ`). So what holds of a round whenever it holds of the parts holds of
the interpreter (`evaluate_execute_induction`), and of every other one that is made of rounds. -/

namespace Lox

open Eval

section

variable (evaluate : Expr → Eval Value) (execute : Stmt → Eval Flow)

/-- The value of an expression. -/
def evaluateRound : Expr → Eval Value
  | .literal value => return value.toValue
  | .grouping inner => evaluate inner
  | .unary operator right => do applyUnary operator (← evaluate right)
  | .binary left operator right => do
    let a ← evaluate left
    let b ← evaluate right
    applyBinary operator a b
  | .logical left operator right => do
    let a ← evaluate left
    if shortCircuits operator a then return a else evaluate right
  | .var id name => lookUp id name
  | .assign id name value => do
    let v ← evaluate value
    assign id name v
    return v
  | .call callee paren arguments => do
    let f ← evaluate callee
    let vs ← arguments.mapM evaluate
    applyCall execute paren f vs
  | .get object name => do
    match ← evaluate object with
    | .object identity c => getProperty identity c name
    | _ => raise name .noProperties
  | .set object name value => do
    match ← evaluate object with
    | .object identity _ =>
      let v ← evaluate value
      setField identity name.lexeme v
      return v
    | _ => raise name .noFields
  | .thisRef id keyword => lookUp id keyword
  | .superRef id keyword method => superMethod id keyword method

/-- How a statement ends. -/
def executeRound : Stmt → Eval Flow
  | .expression value => do
    let _ ← evaluate value
    return .normal
  | .print value => do
    printLine (← evaluate value).text
    return .normal
  | .var name none => do
    define name.lexeme .nil
    return .normal
  | .var name (some initializer) => do
    define name.lexeme (← evaluate initializer)
    return .normal
  | .block body => do
    let chain ← openScope (← get).chain []
    within chain (runAll execute body)
  | .ifElse condition thenBranch elseBranch => do
    if (← evaluate condition).isTruthy then execute thenBranch
    else match elseBranch with
      | some elseBranch => execute elseBranch
      | none => return .normal
  | .loop condition body => do
    if (← evaluate condition).isTruthy then
      match ← execute body with
      | .normal => execute (.loop condition body)
      | .broken => return .normal
      | .returned value => return .returned value
    else return .normal
  | .function definition => do
    define definition.name.lexeme (← close definition)
    return .normal
  | .ret _ none => return .returned .nil
  | .ret _ (some value) => return .returned (← evaluate value)
  | .brk _ => return .broken
  | .classDef name superclass methods => do
    declareClass name superclass methods
    return .normal

end

theorem evaluate_succ (fuel : Nat) (e : Expr) :
    evaluate (fuel + 1) e = evaluateRound (evaluate fuel) (execute fuel) e := by
  cases e <;> rfl

theorem execute_succ (fuel : Nat) (s : Stmt) :
    execute (fuel + 1) s = executeRound (evaluate fuel) (execute fuel) s := by
  cases s with
  | var name initializer => cases initializer <;> rfl
  | ret keyword value => cases value <;> rfl
  | _ => rfl

/-- What holds when the fuel has run out, and of each round if it holds of the parts, holds of the
    interpreter. -/
theorem evaluate_execute_induction {P : Expr → Eval Value → Prop} {Q : Stmt → Eval Flow → Prop}
    (hzero : (∀ e, P e (throw .outOfFuel)) ∧ ∀ s, Q s (throw .outOfFuel))
    (hround : ∀ ev run, (∀ e, P e (ev e)) → (∀ s, Q s (run s)) →
      (∀ e, P e (evaluateRound ev run e)) ∧ ∀ s, Q s (executeRound ev run s)) (fuel : Nat) :
    (∀ e, P e (evaluate fuel e)) ∧ ∀ s, Q s (execute fuel s) := by
  induction fuel with
  | zero => exact hzero
  | succ fuel ih =>
    obtain ⟨hev, hrun⟩ := ih
    obtain ⟨hexpr, hstmt⟩ := hround _ _ hev hrun
    refine ⟨fun e => ?_, fun s => ?_⟩
    · rw [evaluate_succ]
      exact hexpr e
    · rw [execute_succ]
      exact hstmt s

end Lox
