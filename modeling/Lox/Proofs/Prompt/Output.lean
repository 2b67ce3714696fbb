import Lox.Proofs.Run.Limits
import Lox.Proofs.Run.Rounds

set_option autoImplicit false

/-! # What was written before makes no difference

A program writes behind what has been written, and cannot read it. So a run does the same, and says
the same, whatever text stands in the output when it begins (`Session.run_behind`). -/

namespace Lox

open Eval

/-- The machine with a text in front of all that it has written. -/
def Machine.behind (text : String) (m : Machine) : Machine :=
  { m with output := { m.output with text := text ++ m.output.text } }

namespace Eval

variable {α β : Type}

/-! ## Steps -/

/-- A step that does the same whatever was written before. -/
def Unmindful (x : Eval α) : Prop :=
  ∀ text m, x (m.behind text) = mapEnd (Machine.behind text) (x m)

namespace Unmindful

variable {x : Eval α}

theorem of_silent (h : x.Silent) : Unmindful x := by
  intro text m
  have hout := h.output m
  rw [Machine.behind, h m, ← hout]
  cases x m <;> rfl

theorem pure (a : α) : Unmindful (Pure.pure a : Eval α) := fun _ _ => rfl

theorem bind {k : α → Eval β} (hx : Unmindful x) (hk : ∀ a, Unmindful (k a)) :
    Unmindful (x >>= k) := by
  intro text m
  simp only [Bind.bind, EStateM.bind, hx text m]
  cases x m with
  | ok a m' => exact hk a text m'
  | error stop m' => rfl

/-- A step that looks at the machine first, but not at what was written. -/
theorem get {k : Machine → Eval α} (hk : ∀ m, Unmindful (k m))
    (htext : ∀ text m, k (m.behind text) = k m) : Unmindful (MonadState.get >>= k) := by
  intro text m
  rw [get_bind, get_bind, htext]
  exact hk m text m

theorem within {chain : Chain} (hx : Unmindful x) : Unmindful (Eval.within chain x) := by
  intro text m
  have hx := hx text { m with chain }
  unfold Eval.within
  rw [show { m.behind text with chain } = Machine.behind text { m with chain } from rfl, hx]
  cases x { m with chain } <;> rfl

theorem mapM {γ : Type} {f : γ → Eval α} (hf : ∀ c, Unmindful (f c)) (cs : List γ) :
    Unmindful (cs.mapM f) := by
  induction cs with
  | nil =>
    rw [List.mapM_nil]
    exact .pure []
  | cons c cs ih =>
    rw [List.mapM_cons]
    refine (hf c).bind fun a => ?_
    exact ih.bind fun as => .pure (a :: as)

end Unmindful

/-- A chunk is written behind what was written before. -/
theorem write_unmindful (chunk : String) : Unmindful (write chunk) := by
  intro text m
  unfold write
  rw [get_bind, get_bind, show (m.behind text).output.accepts chunk = m.output.accepts chunk from rfl]
  split
  · show EStateM.Result.ok () _ = EStateM.Result.ok () _
    simp [Machine.behind, Output.append, String.append_assoc]
  · rfl

theorem printLine_unmindful (text : String) : Unmindful (printLine text) :=
  (write_unmindful text).bind fun _ => write_unmindful "\n"

theorem flush_unmindful : Unmindful flush := by
  refine .get (fun m => ?_) fun _ _ => rfl
  split
  · exact .of_silent (.throw _)
  · exact .pure ()

end Eval

/-! ## Expressions and statements -/

section

variable {execute : Stmt → Eval Flow} (hexecute : ∀ s, Unmindful (execute s))

include hexecute

theorem runAll_unmindful (ss : List Stmt) : Unmindful (runAll execute ss) := by
  induction ss with
  | nil => exact .pure Flow.normal
  | cons s ss ih =>
    refine (hexecute s).bind fun flow => ?_
    cases flow with
    | normal => exact ih
    | _ => exact .pure _

theorem callFunction_unmindful (f : Closure) (vs : List Value) :
    Unmindful (callFunction execute f vs) := by
  refine (Unmindful.of_silent (openScope_silent _ _)).bind fun chain => ?_
  refine (runAll_unmindful hexecute f.definition.body).within.bind fun flow => ?_
  exact .of_silent (result_silent f flow)

theorem construct_unmindful (c : Class) (vs : List Value) :
    Unmindful (construct execute c vs) := by
  refine (Unmindful.of_silent (newObject_silent c)).bind fun object => ?_
  cases c.method? initializerName with
  | none => exact .pure object
  | some method =>
    refine (Unmindful.of_silent (bindMethod_silent method object)).bind fun f => ?_
    exact (callFunction_unmindful hexecute f vs).bind fun _ => .pure object

theorem applyCall_unmindful (paren : Token) (callee : Value) (vs : List Value) :
    Unmindful (applyCall execute paren callee vs) := by
  unfold applyCall
  cases callee.arity? with
  | none => exact .of_silent (raise_silent _ _)
  | some arity =>
    dsimp only
    split
    · exact .of_silent (raise_silent _ _)
    · cases callee with
      | function f => exact callFunction_unmindful hexecute f vs
      | «class» c => exact construct_unmindful hexecute c vs
      | native f =>
        cases f with
        | clock => exact .of_silent readClock_silent
      | _ => exact .of_silent (raise_silent _ _)

variable {evaluate : Expr → Eval Value} (hevaluate : ∀ e, Unmindful (evaluate e))

include hevaluate

theorem evaluateRound_unmindful (e : Expr) : Unmindful (evaluateRound evaluate execute e) := by
  cases e with
  | literal value => exact .pure value.toValue
  | grouping inner => exact hevaluate inner
  | unary operator right =>
    refine (hevaluate right).bind fun v => ?_
    exact .of_silent (applyUnary_silent operator v)
  | binary left operator right =>
    refine (hevaluate left).bind fun a => ?_
    refine (hevaluate right).bind fun b => ?_
    exact .of_silent (applyBinary_silent operator a b)
  | logical left operator right =>
    refine (hevaluate left).bind fun a => ?_
    split
    · exact .pure a
    · exact hevaluate right
  | var id name => exact .of_silent (lookUp_silent id name)
  | assign id name value =>
    refine (hevaluate value).bind fun v => ?_
    exact .of_silent ((assign_silent id name v).bind fun _ => .pure v)
  | call callee paren arguments =>
    refine (hevaluate callee).bind fun f => ?_
    refine (Unmindful.mapM hevaluate arguments).bind fun vs => ?_
    exact applyCall_unmindful hexecute paren f vs
  | get object name =>
    refine (hevaluate object).bind fun v => ?_
    cases v with
    | object identity c => exact .of_silent (getProperty_silent identity c name)
    | _ => exact .of_silent (raise_silent _ _)
  | set object name value =>
    refine (hevaluate object).bind fun target => ?_
    cases target with
    | object identity c =>
      refine (hevaluate value).bind fun v => ?_
      exact .of_silent ((setField_silent _ _ _).bind fun _ => .pure v)
    | _ => exact .of_silent (raise_silent _ _)
  | thisRef id keyword => exact .of_silent (lookUp_silent id keyword)
  | superRef id keyword method => exact .of_silent (superMethod_silent id keyword method)

theorem executeRound_unmindful (s : Stmt) : Unmindful (executeRound evaluate execute s) := by
  cases s with
  | expression value => exact (hevaluate value).bind fun _ => .pure _
  | print value =>
    refine (hevaluate value).bind fun v => ?_
    exact (printLine_unmindful v.text).bind fun _ => .pure _
  | var name initializer =>
    cases initializer with
    | none => exact .of_silent ((define_silent _ _).bind fun _ => .pure _)
    | some initializer =>
      refine (hevaluate initializer).bind fun v => ?_
      exact .of_silent ((define_silent _ v).bind fun _ => .pure _)
  | block body =>
    refine .get (fun m => ?_) fun _ _ => rfl
    refine (Unmindful.of_silent (openScope_silent m.chain [])).bind fun chain => ?_
    exact (runAll_unmindful hexecute body).within
  | ifElse condition thenBranch elseBranch =>
    refine (hevaluate condition).bind fun v => ?_
    split
    · exact hexecute thenBranch
    · cases elseBranch with
      | none => exact .pure _
      | some elseBranch => exact hexecute elseBranch
  | loop condition body =>
    refine (hevaluate condition).bind fun v => ?_
    split
    · refine (hexecute body).bind fun flow => ?_
      cases flow with
      | normal => exact hexecute (.loop condition body)
      | _ => exact .pure _
    · exact .pure _
  | function definition =>
    refine .of_silent ((close_silent definition).bind fun f => ?_)
    exact (define_silent _ _).bind fun _ => .pure _
  | ret keyword value =>
    cases value with
    | none => exact .pure _
    | some value => exact (hevaluate value).bind fun v => .pure (Flow.returned v)
  | brk keyword => exact .pure _
  | classDef name superclass methods =>
    exact .of_silent ((declareClass_silent name superclass methods).bind fun _ => .pure _)

end

theorem evaluate_execute_unmindful (fuel : Nat) :
    (∀ e, Unmindful (evaluate fuel e)) ∧ ∀ s, Unmindful (execute fuel s) :=
  evaluate_execute_induction (P := fun _ x => Unmindful x) (Q := fun _ x => Unmindful x)
    ⟨fun _ => .of_silent (.throw _), fun _ => .of_silent (.throw _)⟩
    (fun _ _ hev hrun => ⟨evaluateRound_unmindful hrun hev, executeRound_unmindful hrun hev⟩) fuel

theorem runProgram_unmindful (fuel : Nat) (program : List Stmt) :
    Unmindful (runProgram fuel program) := by
  refine (runAll_unmindful (evaluate_execute_unmindful fuel).2 program).bind fun flow => ?_
  cases flow with
  | normal => exact flush_unmindful
  | _ => exact .of_silent (.throw _)

/-! ## Sources -/

namespace Session

/-- The session with a text in front of all that has been written in it. -/
def behind (text : String) (session : Session) : Session :=
  { session with machine := session.machine.behind text }

@[simp] theorem behind_text (text : String) (session : Session) :
    (session.behind text).machine.output.text = text ++ session.machine.output.text := rfl

theorem behind_behind (text text' : String) (session : Session) :
    (session.behind text').behind text = session.behind (text ++ text') := by
  simp [behind, Machine.behind, String.append_assoc]

/-- Running a source does the same whatever was written before. -/
theorem run_behind (fuel : Nat) (source : List UInt8) (text : String) (session : Session) :
    (session.behind text).run fuel source =
      ((session.run fuel source).1, (session.run fuel source).2.behind text) := by
  have hrun := runProgram_unmindful fuel (session.parsed source).tree text (session.prepared source)
  rw [run_eq, run_eq,
    show (session.behind text).staticErrors source = session.staticErrors source from rfl,
    show (session.behind text).parsed source = session.parsed source from rfl,
    show (session.behind text).prepared source = (session.prepared source).behind text from rfl, hrun]
  split
  · cases runProgram fuel (session.parsed source).tree (session.prepared source) <;> rfl
  · rfl

end Session

end Lox
