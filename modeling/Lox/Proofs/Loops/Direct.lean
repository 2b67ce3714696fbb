import Lox.Proofs.Grammar.Completeness.Expression
import Lox.Proofs.Grammar.Trees
import Lox.Proofs.Run.Reaching

set_option autoImplicit false

/-! # The `for` statement as it is meant

A `for` statement is read as a `while` loop whose body is a block of the body and the increment.
Such a block declares nothing, and the interpreter of this module (`Direct.execute`) opens no scope
for it, whoever wrote it; in all else it is the one that runs programs. In it the tree of a `for`
statement has the meaning that a reader expects (`Direct.execute_forLoop`): one scope for the
initializer and all turns, in each of them the condition, the body and, where the body ends
normally, the increment. -/

namespace Lox

open Eval

/-! ## What is read of a `for` statement -/

namespace Grammar

section

variable {nearest takesElse : Bool} {n n' : RefId} {ts ts' : List Token} {s : Stmt}

theorem Reads.not_declares (h : Reads nearest (.statement takesElse) n ts s n' ts') :
    s.declares = false := by
  cases h with
  | @forLoop _ _ _ _ _ _ _ _ _ _ _ _ _ _ start => cases start <;> rfl
  | expressionAsStatement h => cases h with | expressionStatement => rfl
  | _ => rfl

/-- What is read from a `for` on is the tree of a `for` statement. Its body declares nothing. -/
theorem Reads.eq_forLoop {f : Token}
    (h : Reads nearest (.statement takesElse) n (f :: ts) s n' ts') (hf : f.kind = .forKw) :
    ∃ start condition increment body,
      s = .forLoop start condition increment body ∧ body.declares = false := by
  cases h with
  | forLoop _ _ _ _ _ _ _ hbody => exact ⟨_, _, _, _, rfl, hbody.not_declares⟩
  | expressionAsStatement h =>
    obtain ⟨t, rest, hts, ht⟩ := h.starts Nat.one_ne_zero
    cases hts
    rw [hf] at ht
    cases ht
  | print hk | ret hk | brk hk | block hk | loop hk | ifOnly hk | ifElse hk =>
    rw [hf] at hk
    cases hk

end

end Grammar

/-! ## Blocks without a scope of their own -/

/-- The block that a `for` statement makes of its body and its increment. It declares nothing. -/
def isTurn : List Stmt → Bool
  | [body, .expression _] => !body.declares
  | _ => false

theorem not_declares_of_isTurn {body : List Stmt} (h : isTurn body = true) :
    ∀ s ∈ body, s.declares = false := by
  unfold isTurn at h
  split at h
  · next s e => simpa [Stmt.declares] using h
  · cases h

namespace Direct

mutual

/-- The value of an expression. Functions that are called run directly. -/
def evaluate : Nat → Expr → Eval Value
  | 0, _ => throw .outOfFuel
  | fuel + 1, e => evaluateRound (evaluate fuel) (execute fuel) e

/-- How a statement ends. The block of a body and an increment is run where it stands. -/
def execute : Nat → Stmt → Eval Flow
  | 0, _ => throw .outOfFuel
  | fuel + 1, .block body =>
    if isTurn body then runAll (execute fuel) body
    else executeRound (evaluate fuel) (execute fuel) (.block body)
  | fuel + 1, s => executeRound (evaluate fuel) (execute fuel) s

end

theorem execute_turn (fuel : Nat) {body : List Stmt} (h : isTurn body = true) :
    execute (fuel + 1) (.block body) = runAll (execute fuel) body := by
  rw [execute, if_pos h]

theorem execute_other (fuel : Nat) {s : Stmt} (h : ∀ body, s = .block body → isTurn body = false) :
    execute (fuel + 1) s = executeRound (evaluate fuel) (execute fuel) s := by
  cases s with
  | block body => rw [execute, h body rfl, if_neg Bool.false_ne_true]
  | _ => rfl

/-- Run a resolved program from its first to its last statement and flush the output. -/
def runProgram (fuel : Nat) (program : List Stmt) : Eval Unit := do
  match ← runAll (execute fuel) program with
  | .normal => flush
  | _ => throw .impossible

/-! ## The rule of the `for` statement

The bound on the depth of steps is what it is for the tree: the condition and each further turn are
one step down, and where there is an increment, body and increment are in a block. -/

/-- Whether a loop goes on. A condition that is left out counts as true. -/
def goesOn (condition : Option Expr) (fuel : Nat) : Eval Bool :=
  match condition with
  | none => return true
  | some c => return (← evaluate fuel c).isTruthy

/-- The body of the loop in the tree of a `for` statement. -/
def turnBody (increment : Option Expr) (body : Stmt) : Stmt :=
  match increment with
  | some e => .block [body, .expression e]
  | none => body

/-- One turn of a loop: the body and, if it ends normally, the increment. -/
def turn (increment : Option Expr) (body : Stmt) (fuel : Nat) : Eval Flow :=
  match increment with
  | none => execute fuel body
  | some e => do
    match ← execute (fuel - 1) body with
    | .normal =>
      let _ ← evaluate (fuel - 2) e
      return .normal
    | flow => return flow

/-- All turns of a loop. A `break` in a turn ends this loop, a `return` what is around it as well. -/
def turns (condition increment : Option Expr) (body : Stmt) : Nat → Eval Flow
  | 0 => throw .outOfFuel
  | fuel + 1 => do
    if ← goesOn condition fuel then
      match ← turn increment body fuel with
      | .normal => turns condition increment body fuel
      | .broken => return .normal
      | .returned value => return .returned value
    else return .normal

/-- A `for` statement: with an initializer, one new scope in which this is run once and all turns are
    made. -/
def forStatement (start : Option Stmt) (condition increment : Option Expr) (body : Stmt)
    (fuel : Nat) : Eval Flow :=
  match start, fuel with
  | none, fuel => turns condition increment body fuel
  | some _, 0 => throw .outOfFuel
  | some start, fuel + 1 => do
    let chain ← openScope (← get).chain []
    within chain do
      match ← execute fuel start with
      | .normal => turns condition increment body fuel
      | flow => return flow

section

variable (condition increment : Option Expr) {body : Stmt} (hbody : body.declares = false)

/-- A step and nothing behind it. -/
theorem bind_flow (x : Eval Flow) :
    (x >>= fun flow => match flow with
      | .normal => pure .normal
      | flow => pure flow) = x := by
  have hpure : (fun flow : Flow => match flow with
      | .normal => (pure .normal : Eval Flow)
      | flow => pure flow) = pure := by
    funext flow
    cases flow <;> rfl
  rw [hpure, bind_pure]

include hbody

/-- What the tree of a `for` statement has for the body of its loop makes one turn. -/
theorem execute_turnBody (fuel : Nat) :
    execute fuel (turnBody increment body) = turn increment body fuel := by
  cases increment with
  | none => rfl
  | some e =>
    have hturn : isTurn [body, .expression e] = true := by simp [isTurn, hbody]
    match fuel with
    | 0 => rfl
    | 1 => exact execute_turn 0 hturn
    | fuel + 2 =>
      rw [turnBody, execute_turn _ hturn, runAll, turn]
      refine congrArg _ (funext fun flow => ?_)
      cases flow with
      | normal => exact (bind_flow _).trans (execute_other fuel nofun)
      | returned v => rfl
      | broken => rfl

/-- The loop in the tree of a `for` statement makes its turns. -/
theorem execute_loop (fuel : Nat) :
    execute fuel (.loop (condition.getD (.literal (.bool true))) (turnBody increment body)) =
      turns condition increment body fuel := by
  induction fuel with
  | zero => rfl
  | succ fuel ih =>
    show executeRound (evaluate fuel) (execute fuel) (.loop _ _) = _
    rw [executeRound, turns, execute_turnBody increment hbody fuel, ih]
    cases condition with
    | some c =>
      rw [goesOn, bind_assoc]
      rfl
    | none =>
      cases fuel with
      | succ fuel => rfl
      | zero =>
        -- no fuel is left, neither for the constant nor for a turn
        cases increment <;> rfl

/-- **The tree of a `for` statement means what the statement means.** -/
theorem execute_forLoop (start : Option Stmt) (fuel : Nat) :
    execute fuel (.forLoop start condition increment body) =
      forStatement start condition increment body fuel := by
  cases start with
  | none => exact execute_loop condition increment hbody fuel
  | some start =>
    cases fuel with
    | zero => rfl
    | succ fuel =>
      have hturns := execute_loop condition increment hbody fuel
      show execute (fuel + 1) (.block [start, .loop (condition.getD (.literal (.bool true)))
        (turnBody increment body)]) = _
      rw [execute_other fuel (by simp [isTurn]), executeRound, forStatement]
      refine congrArg _ (funext fun m => congrArg _ (funext fun chain => congrArg _ ?_))
      rw [runAll]
      refine congrArg _ (funext fun flow => ?_)
      cases flow with
      | normal => exact (bind_flow _).trans hturns
      | returned v => rfl
      | broken => rfl

end

/-! ## Where a turn begins -/

theorem evaluate_execute_moves (fuel : Nat) :
    (∀ e, (evaluate fuel e).Moves) ∧ ∀ s, (execute fuel s).Moves := by
  induction fuel with
  | zero => exact ⟨fun _ => .throw nofun, fun _ => .throw nofun⟩
  | succ fuel ih =>
    obtain ⟨hevaluate, hexecute⟩ := ih
    refine ⟨fun e => evaluateRound_moves hevaluate hexecute e, fun s => ?_⟩
    by_cases h : ∃ body, s = .block body ∧ isTurn body = true
    · obtain ⟨body, rfl, hturn⟩ := h
      rw [execute_turn fuel hturn]
      exact runAll_moves hexecute body
    · rw [execute_other fuel fun body hs => Bool.eq_false_iff.2 fun hturn => h ⟨body, hs, hturn⟩]
      exact executeRound_moves hevaluate hexecute s

theorem evaluate_moves (fuel : Nat) (e : Expr) : (evaluate fuel e).Moves :=
  (evaluate_execute_moves fuel).1 e

theorem execute_moves (fuel : Nat) (s : Stmt) : (execute fuel s).Moves :=
  (evaluate_execute_moves fuel).2 s

/-- The machines in which the turns of a loop begin, with the bound on the depth of steps that is
    left to the loop. -/
inductive BeginsTurn (condition increment : Option Expr) (body : Stmt) :
    Nat → Machine → Machine → Prop
  | first {fuel : Nat} {m m₁ : Machine} : goesOn condition fuel m = .ok true m₁ →
      BeginsTurn condition increment body (fuel + 1) m m₁
  | next {fuel : Nat} {m m₁ m₂ m' : Machine} : goesOn condition fuel m = .ok true m₁ →
      turn increment body fuel m₁ = .ok .normal m₂ →
      BeginsTurn condition increment body fuel m₂ m' →
      BeginsTurn condition increment body (fuel + 1) m m'

section

variable {condition increment : Option Expr} {body : Stmt} {fuel : Nat} {m m' : Machine}

theorem chain_of_goesOn {holds : Bool} (h : goesOn condition fuel m = .ok holds m') :
    m'.chain = m.chain := by
  have hmoves : (goesOn condition fuel).Moves := by
    cases condition with
    | none => exact .pure _
    | some c => exact (evaluate_moves fuel c).bind fun _ => .pure _
  exact (hmoves.of_ok h).chain

theorem chain_of_turn {flow : Flow} (h : turn increment body fuel m = .ok flow m') :
    m'.chain = m.chain := by
  have hmoves : (turn increment body fuel).Moves := by
    cases increment with
    | none => exact execute_moves fuel body
    | some e =>
      refine (execute_moves _ body).bind fun flow => ?_
      cases flow with
      | normal => exact (evaluate_moves _ e).bind fun _ => .pure _
      | _ => exact .pure _
  exact (hmoves.of_ok h).chain

/-- All turns of a loop begin in the scopes in which the loop began. So they have the variable of the
    initializer in common. -/
theorem BeginsTurn.chain_eq (h : BeginsTurn condition increment body fuel m m') :
    m'.chain = m.chain := by
  induction h with
  | first hcondition => exact chain_of_goesOn hcondition
  | next hcondition hturn _ ih => exact ih.trans ((chain_of_turn hturn).trans
      (chain_of_goesOn hcondition))

end

end Direct

end Lox
