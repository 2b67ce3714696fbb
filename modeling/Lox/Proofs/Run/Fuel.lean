import Lox.Proofs.Run.Rounds
import Lox.Proofs.Run.Sources

set_option autoImplicit false

/-! # More fuel

A bound on the depth of steps stops a run or makes no difference to it. Between two runs that have
different bounds and are the same but for that, the one with the smaller bound does what the other
does until it is stopped (`Approximates`), so a bound that suffices can be replaced by every larger
one (`Session.run_of_le`, `Session.evaluate_of_le`). -/

namespace Lox

open Eval

/-! ## Steps that may run out of fuel -/

namespace Eval

variable {α β γ : Type}

/-- A step that does what another does, unless it runs out of fuel. -/
def Approximates (x y : Eval α) : Prop := ∀ m, (∃ m', x m = .error .outOfFuel m') ∨ y m = x m

namespace Approximates

variable {x y : Eval α}

theorem refl (x : Eval α) : x.Approximates x := fun _ => .inr rfl

theorem outOfFuel (y : Eval α) : Approximates (throw .outOfFuel) y := fun m => .inl ⟨m, rfl⟩

theorem bind {k k' : α → Eval β} (h : x.Approximates y) (hk : ∀ a, (k a).Approximates (k' a)) :
    (x >>= k).Approximates (y >>= k') := by
  intro m
  simp only [Bind.bind, EStateM.bind]
  rcases h m with ⟨m', hx⟩ | hsame
  · exact .inl ⟨m', by rw [hx]⟩
  · rw [hsame]
    cases x m with
    | ok a m' => exact hk a m'
    | error stop m' => exact .inr rfl

theorem within {chain : Chain} (h : x.Approximates y) :
    (Eval.within chain x).Approximates (Eval.within chain y) := by
  intro m
  unfold Eval.within
  rcases h { m with chain } with ⟨m', hx⟩ | hsame
  · exact .inl ⟨{ m' with chain := m.chain }, by rw [hx]⟩
  · exact .inr (by rw [hsame])

theorem mapM {f f' : γ → Eval α} (hf : ∀ c, (f c).Approximates (f' c)) (cs : List γ) :
    (cs.mapM f).Approximates (cs.mapM f') := by
  induction cs with
  | nil => exact .refl _
  | cons c cs ih =>
    rw [List.mapM_cons, List.mapM_cons]
    refine (hf c).bind fun a => ?_
    refine ih.bind fun as => ?_
    exact .refl _

end Approximates

end Eval

/-! ## Calls -/

section

variable {run run' : Stmt → Eval Flow}

theorem runAll_approximates (hrun : ∀ s, (run s).Approximates (run' s)) (ss : List Stmt) :
    (runAll run ss).Approximates (runAll run' ss) := by
  induction ss with
  | nil => exact .refl _
  | cons s ss ih =>
    refine (hrun s).bind fun flow => ?_
    cases flow with
    | normal => exact ih
    | _ => exact .refl _

theorem callFunction_approximates (hrun : ∀ s, (run s).Approximates (run' s)) (f : Closure)
    (arguments : List Value) :
    (callFunction run f arguments).Approximates (callFunction run' f arguments) := by
  have hbody := runAll_approximates hrun f.definition.body
  refine (Approximates.refl _).bind fun chain => ?_
  refine hbody.within.bind fun flow => ?_
  exact .refl _

theorem construct_approximates (hrun : ∀ s, (run s).Approximates (run' s)) (c : Class)
    (arguments : List Value) :
    (construct run c arguments).Approximates (construct run' c arguments) := by
  refine (Approximates.refl _).bind fun object => ?_
  cases c.method? initializerName with
  | none => exact .refl _
  | some method =>
    refine (Approximates.refl _).bind fun f => ?_
    exact (callFunction_approximates hrun f arguments).bind fun _ => .refl _

theorem applyCall_approximates (hrun : ∀ s, (run s).Approximates (run' s)) (paren : Token)
    (callee : Value) (arguments : List Value) :
    (applyCall run paren callee arguments).Approximates (applyCall run' paren callee arguments) := by
  unfold applyCall
  cases callee.arity? with
  | none => exact .refl _
  | some arity =>
    dsimp only
    split
    · exact .refl _
    · cases callee with
      | function f => exact callFunction_approximates hrun f arguments
      | «class» c => exact construct_approximates hrun c arguments
      | _ => exact .refl _

/-! ## One round -/

variable {value value' : Expr → Eval Value}

theorem evaluateRound_approximates (hvalue : ∀ e, (value e).Approximates (value' e))
    (hrun : ∀ s, (run s).Approximates (run' s)) (e : Expr) :
    (evaluateRound value run e).Approximates (evaluateRound value' run' e) := by
  cases e with
  | literal | var | thisRef | superRef => exact .refl _
  | grouping inner => exact hvalue inner
  | unary operator right => exact (hvalue right).bind fun v => .refl _
  | binary left operator right =>
    refine (hvalue left).bind fun a => ?_
    refine (hvalue right).bind fun b => ?_
    exact .refl _
  | logical left operator right =>
    refine (hvalue left).bind fun a => ?_
    split
    · exact .refl _
    · exact hvalue right
  | assign id name e => exact (hvalue e).bind fun v => .refl _
  | call callee paren arguments =>
    refine (hvalue callee).bind fun f => ?_
    refine (Approximates.mapM hvalue arguments).bind fun vs => ?_
    exact applyCall_approximates hrun paren f vs
  | get object name => exact (hvalue object).bind fun v => .refl _
  | set object name e =>
    refine (hvalue object).bind fun v => ?_
    cases v with
    | object identity c => exact (hvalue e).bind fun v => .refl _
    | _ => exact .refl _

theorem executeRound_approximates (hvalue : ∀ e, (value e).Approximates (value' e))
    (hrun : ∀ s, (run s).Approximates (run' s)) (s : Stmt) :
    (executeRound value run s).Approximates (executeRound value' run' s) := by
  cases s with
  | expression e => exact (hvalue e).bind fun v => .refl _
  | print e => exact (hvalue e).bind fun v => .refl _
  | var name initializer =>
    cases initializer with
    | none => exact .refl _
    | some e => exact (hvalue e).bind fun v => .refl _
  | block body =>
    refine (Approximates.refl _).bind fun m => ?_
    refine (Approximates.refl _).bind fun chain => ?_
    exact (runAll_approximates hrun body).within
  | ifElse condition thenBranch elseBranch =>
    refine (hvalue condition).bind fun v => ?_
    split
    · exact hrun thenBranch
    · cases elseBranch with
      | none => exact .refl _
      | some s => exact hrun s
  | loop condition body =>
    refine (hvalue condition).bind fun v => ?_
    split
    · refine (hrun body).bind fun flow => ?_
      cases flow with
      | normal => exact hrun (.loop condition body)
      | _ => exact .refl _
    · exact .refl _
  | function | brk | classDef => exact .refl _
  | ret keyword e =>
    cases e with
    | none => exact .refl _
    | some e => exact (hvalue e).bind fun v => .refl _

end

/-! ## Runs -/

/-- A run with less fuel approximates one with more. The induction is on the smaller bound, for
    expressions and statements at once since each calls the other. -/
theorem approximates_of_le {fuel more : Nat} (h : fuel ≤ more) :
    (∀ e, (evaluate fuel e).Approximates (evaluate more e)) ∧
      ∀ s, (execute fuel s).Approximates (execute more s) := by
  induction fuel generalizing more with
  | zero => exact ⟨fun e => .outOfFuel _, fun s => .outOfFuel _⟩
  | succ fuel ih =>
    obtain ⟨more, rfl⟩ : ∃ n, more = n + 1 := ⟨more - 1, by omega⟩
    obtain ⟨hvalue, hrun⟩ := ih (Nat.le_of_succ_le_succ h)
    constructor
    · intro e
      rw [evaluate_succ, evaluate_succ]
      exact evaluateRound_approximates hvalue hrun e
    · intro s
      rw [execute_succ, execute_succ]
      exact executeRound_approximates hvalue hrun s

theorem runProgram_approximates {fuel more : Nat} (h : fuel ≤ more) (program : List Stmt) :
    (runProgram fuel program).Approximates (runProgram more program) := by
  have hprogram := runAll_approximates (approximates_of_le h).2 program
  exact hprogram.bind fun flow => .refl _

namespace Session

/-- **A bound that suffices for a source can be replaced by every larger one.** -/
theorem run_of_le {fuel more : Nat} (h : fuel ≤ more) (session : Session) (source : List UInt8)
    (hfuel : (session.run fuel source).1.status ≠ .outOfFuel) :
    session.run more source = session.run fuel source := by
  rw [run_eq] at hfuel
  rw [run_eq, run_eq]
  split
  · next haccepted =>
    rw [if_pos haccepted] at hfuel
    rcases runProgram_approximates h (session.parsed source).tree (session.prepared source) with
      ⟨m, hstop⟩ | hsame
    · rw [hstop] at hfuel
      exact absurd rfl hfuel
    · rw [hsame]
  · rfl

/-- **A bound that suffices for an expression can be replaced by every larger one.** -/
theorem evaluate_of_le {fuel more : Nat} (h : fuel ≤ more) (session : Session)
    (source : List UInt8)
    (hfuel : (session.evaluate fuel source).1.result ≠ some (.error .outOfFuel)) :
    session.evaluate more source = session.evaluate fuel source := by
  unfold evaluate at hfuel ⊢
  dsimp only at hfuel ⊢
  split
  · rfl
  · next hran =>
    rw [if_neg hran] at hfuel
    split
    · next e htree herrors =>
      rw [htree, herrors] at hfuel
      rcases (approximates_of_le h).1 e session.machine with ⟨m, hstop⟩ | hsame
      · simp only [hstop] at hfuel
        exact absurd rfl hfuel
      · rw [hsame]
    · rfl

end Session

end Lox
