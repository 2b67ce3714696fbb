import Lox.Proofs.Run.Rounds

set_option autoImplicit false

/-! # What a run can do to a machine

`Machine.Reaches` lists all that a run can change: a name is bound in a frame, a frame is opened, an
object is made or a field of it changed, a chunk is written that the output takes. Every step of the
interpreter is made up of these (`evaluate_moves`, `execute_moves`), however it ends. So what each of
them keeps is kept by every run, as that an output is only added to (`Output.Grows`). -/

namespace Lox

/-! ## Output -/

/-- An output to which some text was added. -/
def Output.Grows (out out' : Output) : Prop := ∃ text, out' = out.append text

namespace Output

theorem append_empty (out : Output) : out.append "" = out := by
  simp [append, lineEnds]

theorem append_append (out : Output) (s t : String) :
    (out.append s).append t = out.append (s ++ t) := by
  simp [append, lineEnds, String.append_assoc, Nat.add_assoc]

theorem Grows.trans {out₁ out₂ out₃ : Output} (h : out₁.Grows out₂) (h' : out₂.Grows out₃) :
    out₁.Grows out₃ := by
  obtain ⟨s, rfl⟩ := h
  obtain ⟨t, rfl⟩ := h'
  exact ⟨s ++ t, out₁.append_append s t⟩

/-- An output that takes everything there is to write. -/
structure Unfailing (out : Output) : Prop where
  limit : out.limit = none
  flushFails : out.flushFails = false

theorem Unfailing.grows {out out' : Output} (h : out.Unfailing) (hgrows : out.Grows out') :
    out'.Unfailing := by
  obtain ⟨text, rfl⟩ := hgrows
  exact ⟨h.limit, h.flushFails⟩

theorem Unfailing.accepts {out : Output} (h : out.Unfailing) (chunk : String) :
    out.accepts chunk = true := by
  simp [Output.accepts, isFull, h.limit]

end Output

/-! ## Changes -/

/-- The machines that a run can come to. -/
inductive Machine.Reaches : Machine → Machine → Prop
  | refl (m : Machine) : Reaches m m
  | trans {m₁ m₂ m₃ : Machine} : Reaches m₁ m₂ → Reaches m₂ m₃ → Reaches m₁ m₃
  | bindIn (m : Machine) (frame : FrameId) (name : String) (value : Value) :
      Reaches m { m with store := m.store.bindIn frame name value }
  | openIn (m : Machine) (chain : Chain) :
      Reaches m { m with store := (m.store.openIn chain).2 }
  | within {m m' : Machine} (chain : Chain) : Reaches { m with chain } m' →
      Reaches m { m' with chain := m.chain }
  | identity (m : Machine) : Reaches m { m with nextIdentity := m.nextIdentity + 1 }
  | object (m : Machine) : Reaches m { m with objects := m.objects.push [] }
  | field (m : Machine) (identity : Nat) (name : String) (value : Value) :
      Reaches m { m with objects := m.objects.modify identity (·.bind name value) }
  | write (m : Machine) (chunk : String) : m.output.accepts chunk →
      Reaches m { m with output := m.output.append chunk }
  | clock (m : Machine) : Reaches m { m with clock := { m.clock with reads := m.clock.reads + 1 } }

theorem Machine.Reaches.define (m : Machine) (chain : Chain) (name : String) (value : Value) :
    m.Reaches { m with store := m.store.define chain name value } := by
  cases chain with
  | nil => exact .refl m
  | cons frame _ => exact .bindIn m frame name value

/-- A run changes no distance. -/
theorem Machine.Reaches.distances {m m' : Machine} (h : m.Reaches m') :
    m'.distances = m.distances := by
  induction h with
  | trans _ _ ih ih' => exact ih'.trans ih
  | within _ _ ih => exact ih
  | _ => rfl

/-- A run comes back to the scope it began in. -/
theorem Machine.Reaches.chain {m m' : Machine} (h : m.Reaches m') : m'.chain = m.chain := by
  induction h with
  | trans _ _ ih ih' => exact ih'.trans ih
  | _ => rfl

/-- A run only adds to the output. -/
theorem Machine.Reaches.output {m m' : Machine} (h : m.Reaches m') : m.output.Grows m'.output := by
  induction h with
  | trans _ _ ih ih' => exact ih.trans ih'
  | within _ _ ih => exact ih
  | write _ chunk _ => exact ⟨chunk, rfl⟩
  | _ => exact ⟨"", (Output.append_empty _).symm⟩

/-- The ends that a run can come to. Only an output that fails stops it with an error of the
    output. -/
inductive Machine.ComesTo {α : Type} (m : Machine) : EStateM.Result Stop Machine α → Prop
  | ok {a m'} : m.Reaches m' → ComesTo m (.ok a m')
  | error {stop m'} : m.Reaches m' →
      (∀ problem, stop = .error (.output problem) → ¬ m'.output.Unfailing) →
      ComesTo m (.error stop m')

/-- A step that does nothing but what a run can do. -/
def Eval.Moves {α : Type} (x : Eval α) : Prop := ∀ m : Machine, m.ComesTo (x m)

namespace Eval.Moves

variable {α β : Type} {x : Eval α}

theorem pure (a : α) : Moves (Pure.pure a : Eval α) := fun m => .ok (.refl m)

theorem throw {stop : Stop} (h : ∀ problem, stop ≠ .error (.output problem)) :
    Moves (MonadExcept.throw stop : Eval α) :=
  fun m => .error (.refl m) fun problem hstop => absurd hstop (h problem)

theorem bind {k : α → Eval β} (hx : x.Moves) (hk : ∀ a, (k a).Moves) : (x >>= k).Moves := by
  intro m
  have hx := hx m
  simp only [Bind.bind, EStateM.bind]
  generalize x m = r at hx ⊢
  cases hx with
  | error hm hstop => exact .error hm hstop
  | @ok a m' hm =>
    have hk := hk a m'
    show m.ComesTo (k a m')
    generalize k a m' = r at hk ⊢
    cases hk with
    | ok hm' => exact .ok (hm.trans hm')
    | error hm' hstop => exact .error (hm.trans hm') hstop

/-- A step that looks at the machine first. -/
theorem get {k : Machine → Eval α} (h : ∀ m, (k m).Moves) : (MonadState.get >>= k).Moves :=
  fun m => h m m

theorem within (hx : x.Moves) (chain : Chain) : (Eval.within chain x).Moves := by
  intro m
  have hx := hx { m with chain }
  unfold Eval.within
  generalize x { m with chain } = r at hx ⊢
  cases hx with
  | ok hm => exact .ok hm.within
  | error hm hstop => exact .error hm.within hstop

theorem mapM {f : β → Eval α} (h : ∀ b, (f b).Moves) (bs : List β) : (bs.mapM f).Moves := by
  induction bs with
  | nil =>
    rw [List.mapM_nil]
    exact .pure []
  | cons b bs ih =>
    rw [List.mapM_cons]
    refine (h b).bind fun a => ?_
    exact ih.bind fun as => .pure (a :: as)

/-- Where an output does not fail, no run stops for it. -/
theorem ne_output (hx : x.Moves) {m m' : Machine} (hm : m.output.Unfailing)
    (problem : OutputProblem) : x m ≠ .error (.error (.output problem)) m' := by
  intro h
  have hx := hx m
  rw [h] at hx
  cases hx with
  | error hreaches hstop => exact hstop problem rfl (hm.grows hreaches.output)

/-- A step that ends well comes to a machine that a run can reach. -/
theorem of_ok (hx : x.Moves) {m m' : Machine} {a : α} (h : x m = .ok a m') : m.Reaches m' := by
  have hx := hx m
  rw [h] at hx
  cases hx with
  | ok hreaches => exact hreaches

/-- An output that does not fail never will. -/
theorem unfailing (hx : x.Moves) {m m' : Machine} (hm : m.output.Unfailing) {a : α}
    (h : x m = .ok a m') : m'.output.Unfailing :=
  hm.grows (hx.of_ok h).output

end Eval.Moves

/-! ## Steps of the machine -/

namespace Eval

theorem raise_moves {α : Type} (token : Token) (problem : RuntimeProblem) :
    (raise token problem : Eval α).Moves := .throw nofun

theorem orUndefined_moves {α : Type} (name : Token) (o : Option α) : (orUndefined name o).Moves := by
  cases o with
  | none => exact raise_moves _ _
  | some a => exact .pure a

theorem define_moves (name : String) (value : Value) : (define name value).Moves :=
  fun m => .ok (.define m m.chain name value)

theorem lookUp_moves (id : RefId) (name : Token) : (lookUp id name).Moves :=
  .get fun _ => orUndefined_moves _ _

theorem bindIn_moves (frame : FrameId) (name : String) (value : Value) :
    (bindIn frame name value).Moves := fun m => .ok (.bindIn m frame name value)

theorem assign_moves (id : RefId) (name : Token) (value : Value) : (assign id name value).Moves :=
  .get fun _ => (orUndefined_moves _ _).bind fun _ => bindIn_moves _ _ _

theorem assignInnermost_moves (name : Token) (value : Value) : (assignInnermost name value).Moves :=
  .get fun _ => (orUndefined_moves _ _).bind fun _ => bindIn_moves _ _ _

theorem openScope_moves (outer : Chain) (bindings : List (String × Value)) :
    (openScope outer bindings).Moves := by
  intro m
  have hdefine : ∀ (chain : Chain) (m : Machine), m.Reaches { m with
      store := bindings.foldl (fun store b => store.define chain b.1 b.2) m.store } := by
    intro chain
    induction bindings with
    | nil => exact .refl
    | cons b bindings ih =>
      intro m
      exact (Machine.Reaches.define m chain b.1 b.2).trans (ih _)
  exact .ok ((Machine.Reaches.openIn m outer).trans (hdefine _ _))

theorem freshIdentity_moves : freshIdentity.Moves := fun m => .ok (.identity m)

theorem close_moves (definition : FunctionDef) : (close definition).Moves :=
  freshIdentity_moves.bind fun _ => .get fun _ => .pure _

theorem bindMethod_moves (method : Method) (object : Value) : (bindMethod method object).Moves := by
  refine (openScope_moves _ _).bind fun _ => ?_
  refine freshIdentity_moves.bind fun _ => ?_
  exact .pure _

theorem newObject_moves (c : Class) : (newObject c).Moves := fun m => .ok (.object m)

theorem getProperty_moves (identity : Nat) (c : Class) (name : Token) :
    (getProperty identity c name).Moves := by
  refine .get fun m => ?_
  cases m.objects[identity]?.bind (·.find? name.lexeme) with
  | some value => exact .pure value
  | none =>
    cases c.method? name.lexeme with
    | none => exact raise_moves _ _
    | some method => exact (bindMethod_moves _ _).bind fun f => .pure (Value.function f)

theorem setField_moves (identity : Nat) (name : String) (value : Value) :
    (setField identity name value).Moves := fun m => .ok (.field m identity name value)

theorem write_moves (chunk : String) : (write chunk).Moves := by
  intro m
  unfold write
  rw [get_bind]
  split
  · next h => exact .ok (.write m chunk h)
  · next h => exact .error (.refl m) fun _ _ hout => h (hout.accepts chunk)

theorem printLine_moves (text : String) : (printLine text).Moves :=
  (write_moves text).bind fun _ => write_moves "\n"

theorem flush_moves : flush.Moves := by
  intro m
  unfold flush
  rw [get_bind]
  split
  · next h => exact .error (.refl m) fun _ _ hout => by simp [hout.flushFails] at h
  · exact .ok (.refl m)

theorem readClock_moves : readClock.Moves := fun m => .ok (.clock m)

end Eval

open Eval

/-! ## Expressions and statements -/

theorem applyUnary_moves (operator : Token) (v : Value) : (applyUnary operator v).Moves := by
  unfold applyUnary
  split <;> first | exact .pure _ | exact raise_moves _ _

theorem applyBinary_moves (operator : Token) (a b : Value) : (applyBinary operator a b).Moves := by
  unfold applyBinary
  split
  case h_6 => split <;> first | exact .pure _ | exact raise_moves _ _
  all_goals first | exact .pure _ | exact raise_moves _ _

section

variable {run : Stmt → Eval Flow} (hrun : ∀ s, (run s).Moves)

include hrun

theorem runAll_moves (ss : List Stmt) : (runAll run ss).Moves := by
  induction ss with
  | nil => exact .pure _
  | cons s ss ih =>
    refine (hrun s).bind fun flow => ?_
    cases flow with
    | normal => exact ih
    | _ => exact .pure _

omit hrun in
theorem result_moves (f : Closure) (flow : Flow) : (result f flow).Moves := by
  unfold result
  split
  · exact .get fun _ => orUndefined_moves _ _
  · cases flow with
    | broken => exact .throw nofun
    | _ => exact .pure _

theorem callFunction_moves (f : Closure) (arguments : List Value) :
    (callFunction run f arguments).Moves := by
  refine (openScope_moves _ _).bind fun chain => ?_
  refine ((runAll_moves hrun f.definition.body).within chain).bind fun flow => ?_
  exact result_moves f flow

theorem construct_moves (c : Class) (arguments : List Value) : (construct run c arguments).Moves := by
  refine (newObject_moves c).bind fun object => ?_
  cases c.method? initializerName with
  | none => exact .pure object
  | some method =>
    refine (bindMethod_moves _ _).bind fun f => ?_
    exact (callFunction_moves hrun f _).bind fun _ => .pure object

theorem applyCall_moves (paren : Token) (callee : Value) (arguments : List Value) :
    (applyCall run paren callee arguments).Moves := by
  unfold applyCall
  cases callee.arity? with
  | none => exact raise_moves _ _
  | some arity =>
    dsimp only
    split
    · exact raise_moves _ _
    · cases callee with
      | function f => exact callFunction_moves hrun f _
      | «class» c => exact construct_moves hrun c _
      | native f =>
        cases f with
        | clock => exact readClock_moves
      | _ => exact raise_moves _ _

end

theorem superclassValue_moves (s : Superclass) : (superclassValue s).Moves := by
  refine (lookUp_moves _ _).bind fun v => ?_
  cases v with
  | «class» c => exact .pure c
  | _ => exact raise_moves _ _

theorem declareClass_moves (name : Token) (superclass : Option Superclass)
    (methods : List FunctionDef) : (declareClass name superclass methods).Moves := by
  have hmake : ∀ chain parents, (do
      let identity ← freshIdentity
      let body : ClassBody := ⟨identity, name.lexeme, methodsOf chain methods⟩
      assignInnermost name (.class ⟨body, parents⟩)).Moves :=
    fun _ _ => freshIdentity_moves.bind fun _ => assignInnermost_moves _ _
  unfold declareClass
  cases superclass with
  | none => exact (define_moves _ _).bind fun _ => .get fun m => hmake m.chain []
  | some s =>
    simp only [bind_map_left]
    refine (superclassValue_moves s).bind fun parent => ?_
    refine (define_moves _ _).bind fun _ => .get fun m => ?_
    exact (openScope_moves _ _).bind fun chain => hmake chain parent.lineage

theorem superMethod_moves (id : RefId) (keyword method : Token) :
    (superMethod id keyword method).Moves := by
  refine .get fun m => ?_
  cases m.distances.get? id with
  | none => exact raise_moves _ _
  | some distance =>
    refine (orUndefined_moves _ _).bind fun parent => ?_
    cases distance with
    | zero => exact .throw nofun
    | succ inner =>
      refine (orUndefined_moves _ _).bind fun object => ?_
      split
      · next c identity origin =>
        cases c.method? method.lexeme with
        | none => exact raise_moves _ _
        | some found => exact (bindMethod_moves _ _).bind fun f => .pure (Value.function f)
      · exact raise_moves _ _

section

variable {ev : Expr → Eval Value} {run : Stmt → Eval Flow} (hev : ∀ e, (ev e).Moves)
  (hrun : ∀ s, (run s).Moves)

include hev hrun

theorem evaluateRound_moves (e : Expr) : (evaluateRound ev run e).Moves := by
  cases e with
  | literal value => exact .pure value.toValue
  | grouping inner => exact hev inner
  | unary operator right =>
    refine (hev right).bind fun v => ?_
    exact applyUnary_moves operator v
  | binary left operator right =>
    refine (hev left).bind fun a => ?_
    refine (hev right).bind fun b => ?_
    exact applyBinary_moves operator a b
  | logical left operator right =>
    refine (hev left).bind fun a => ?_
    cases shortCircuits operator a with
    | true => exact .pure a
    | false => exact hev right
  | var id name => exact lookUp_moves id name
  | assign id name value =>
    refine (hev value).bind fun v => ?_
    exact (assign_moves id name v).bind fun _ => .pure v
  | call callee paren arguments =>
    refine (hev callee).bind fun f => ?_
    refine (Moves.mapM hev arguments).bind fun vs => ?_
    exact applyCall_moves hrun paren f vs
  | get object name =>
    refine (hev object).bind fun value => ?_
    cases value with
    | object identity c => exact getProperty_moves identity c name
    | _ => exact raise_moves _ _
  | set object name value =>
    refine (hev object).bind fun target => ?_
    cases target with
    | object identity c =>
      refine (hev value).bind fun v => ?_
      exact (setField_moves _ _ _).bind fun _ => .pure v
    | _ => exact raise_moves _ _
  | thisRef id keyword => exact lookUp_moves id keyword
  | superRef id keyword method => exact superMethod_moves id keyword method

theorem executeRound_moves (s : Stmt) : (executeRound ev run s).Moves := by
  cases s with
  | expression value => exact (hev value).bind fun _ => .pure _
  | print value =>
    refine (hev value).bind fun v => ?_
    exact (printLine_moves _).bind fun _ => .pure _
  | var name initializer =>
    cases initializer with
    | none => exact (define_moves _ _).bind fun _ => .pure _
    | some initializer =>
      refine (hev initializer).bind fun v => ?_
      exact (define_moves _ _).bind fun _ => .pure _
  | block body =>
    refine .get fun m => ?_
    refine (openScope_moves m.chain []).bind fun chain => ?_
    exact (runAll_moves hrun body).within chain
  | ifElse condition thenBranch elseBranch =>
    refine (hev condition).bind fun v => ?_
    cases v.isTruthy with
    | true => exact hrun thenBranch
    | false =>
      cases elseBranch with
      | none => exact .pure _
      | some elseBranch => exact hrun elseBranch
  | loop condition body =>
    refine (hev condition).bind fun v => ?_
    cases v.isTruthy with
    | false => exact .pure _
    | true =>
      refine (hrun body).bind fun flow => ?_
      cases flow with
      | normal => exact hrun (.loop condition body)
      | _ => exact .pure _
  | function definition =>
    refine (close_moves definition).bind fun f => ?_
    exact (define_moves _ _).bind fun _ => .pure _
  | ret keyword value =>
    cases value with
    | none => exact .pure _
    | some value => exact (hev value).bind fun _ => .pure _
  | brk keyword => exact .pure _
  | classDef name superclass methods =>
    exact (declareClass_moves name superclass methods).bind fun _ => .pure _

end

theorem evaluate_execute_moves (fuel : Nat) :
    (∀ e, (evaluate fuel e).Moves) ∧ ∀ s, (execute fuel s).Moves :=
  evaluate_execute_induction (P := fun _ x => x.Moves) (Q := fun _ x => x.Moves)
    ⟨fun _ => .throw nofun, fun _ => .throw nofun⟩
    (fun _ _ hev hrun => ⟨evaluateRound_moves hev hrun, executeRound_moves hev hrun⟩) fuel

/-- The value of an expression is found by the changes of a run alone. -/
theorem evaluate_moves (fuel : Nat) (e : Expr) : (evaluate fuel e).Moves :=
  (evaluate_execute_moves fuel).1 e

/-- A statement comes to its end by the changes of a run alone. -/
theorem execute_moves (fuel : Nat) (s : Stmt) : (execute fuel s).Moves :=
  (evaluate_execute_moves fuel).2 s

/-- A program comes to its end by the changes of a run alone. -/
theorem runProgram_moves (fuel : Nat) (program : List Stmt) :
    (runProgram fuel program).Moves := by
  refine (runAll_moves (execute_moves fuel) program).bind fun flow => ?_
  cases flow with
  | normal => exact flush_moves
  | _ => exact .throw nofun

end Lox
