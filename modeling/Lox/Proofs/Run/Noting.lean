import Lox.Proofs.Scoping.Sites
import Lox.Session

set_option autoImplicit false

/-! # Runs that take notes

To say what holds at every moment of a run, the run has to be seen from within. `Noted.evaluate` and
`Noted.execute` do what `evaluate` and `execute` do and keep a log beside it: which frame was opened
for which scope, which reference was read or assigned to in which state of the machine, how calls
ended, where functions and classes come from. The notes change nothing (`erase_evaluate`,
`erase_execute`). -/

namespace Lox

/-! ## Events -/

/-- What a method is bound to: an object, and the class that declares the method. -/
structure Receiver where
  identity : Nat
  /-- The class that the object was made from. -/
  origin : Class
  home : ClassBody

def Receiver.object (r : Receiver) : Value := .object r.identity r.origin

/-- What happens in a run. -/
inductive Event where
  /-- A frame is opened for a scope. -/
  | opened (scope : Scope) (frame : FrameId)
  /-- A reference is read while a function is running. -/
  | read (reference : Reference) (machine : Machine) (running : Option Closure)
  /-- A variable is about to be changed to a value. -/
  | assigned (reference : Reference) (value : Value) (machine : Machine)
  /-- A function is made from its declaration while another is running. -/
  | declared (f : Closure) (running : Option Closure)
  /-- A function is made from a method. -/
  | bound (f : Closure) (receiver : Receiver)
  /-- The body of a function ends. -/
  | ended (f : Closure) (flow : Flow)
  /-- A class is made from its declaration, with what its superclass clause gave. -/
  | made (body : ClassBody) (definitions : List FunctionDef) (parent : Option Class)

/-- A machine, and what has happened so far. -/
structure Moment where
  log : List Event
  machine : Machine

/-- A step of the machine that takes notes. -/
abbrev Noting := EStateM Stop Moment

/-- A method with the class that declares it: the nearest one. -/
def Class.home? (c : Class) (name : String) : Option (ClassBody × Method) :=
  c.lineage.findSome? fun body => (body.methods.find? name).map (body, ·)

theorem Class.map_home? (c : Class) (name : String) :
    (c.home? name).map Prod.snd = c.method? name := by
  unfold home? method?
  induction c.lineage with
  | nil => rfl
  | cons body rest ih =>
    rw [List.findSome?_cons, List.findSome?_cons]
    cases body.methods.find? name with
    | none => exact ih
    | some method => rfl

namespace Noted

variable {α : Type}

/-! ## Steps -/

/-- A step that looks at the moment first. -/
theorem get_bind (k : Moment → Noting α) (μ : Moment) : (get >>= k) μ = k μ μ := rfl

/-- A step of the machine of which nothing is noted. -/
def lift (step : Eval α) : Noting α := fun μ =>
  match step μ.machine with
  | .ok a m => .ok a { μ with machine := m }
  | .error stop m => .error stop { μ with machine := m }

def note (e : Event) : Noting Unit := fun μ => .ok () { μ with log := μ.log ++ [e] }

/-- Note that a reference is read now. -/
def noteRead (r : Reference) (running : Option Closure) : Noting Unit := do
  note (.read r (← get).machine running)

/-- Note that a variable is about to be changed. -/
def noteAssigned (r : Reference) (value : Value) : Noting Unit := do
  note (.assigned r value (← get).machine)

/-- Note that the next frame is opened for a scope. -/
def noteOpened (scope : Scope) : Noting Unit := do
  note (.opened scope (← get).machine.store.frames.size)

def openScope (scope : Scope) (outer : Chain) (bindings : List (String × Value)) :
    Noting Chain := do
  noteOpened scope
  lift (Eval.openScope outer bindings)

/-- Run a step in a scope. -/
def within (chain : Chain) (step : Noting α) : Noting α := fun μ =>
  match step { μ with machine := { μ.machine with chain } } with
  | .ok a μ' => .ok a { μ' with machine := { μ'.machine with chain := μ.machine.chain } }
  | .error stop μ' => .error stop { μ' with machine := { μ'.machine with chain := μ.machine.chain } }

def lookUp (running : Option Closure) (r : Reference) : Noting Value := do
  noteRead r running
  lift (Eval.lookUp r.id r.token)

/-! ## Functions and classes -/

/-- The function of a declaration. -/
def close (running : Option Closure) (definition : FunctionDef) : Noting Value := do
  let identity ← lift Eval.freshIdentity
  let f : Closure := ⟨identity, definition, (← get).machine.chain, false⟩
  note (.declared f running)
  return .function f

/-- Bind a method to its receiver. -/
def bindMethod (receiver : Receiver) (method : Method) : Noting Closure := do
  noteOpened (.receiver method.definition)
  let f ← lift (Eval.bindMethod method receiver.object)
  note (.bound f receiver)
  return f

def getProperty (identity : Nat) (c : Class) (name : Token) : Noting Value := do
  let μ ← get
  match μ.machine.objects[identity]?.bind (·.find? name.lexeme) with
  | some value => return value
  | none =>
    match c.home? name.lexeme with
    | some (home, method) => return .function (← bindMethod ⟨identity, c, home⟩ method)
    | none => lift (Eval.raise name (.undefinedProperty name.lexeme))

/-- Run statements in order until one does not end normally. -/
def runAll (run : Stmt → Noting Flow) : List Stmt → Noting Flow
  | [] => pure .normal
  | s :: ss => do
    match ← run s with
    | .normal => runAll run ss
    | flow => return flow

/-- Call a function, which is then the one that is running. -/
def callFunction (run : Option Closure → Stmt → Noting Flow) (f : Closure)
    (arguments : List Value) : Noting Value := do
  let names := f.definition.params.map (·.lexeme)
  let chain ← openScope (.call f.definition) f.chain (names.zip arguments)
  let flow ← within chain (runAll (run (some f)) f.definition.body)
  note (.ended f flow)
  lift (result f flow)

def construct (run : Option Closure → Stmt → Noting Flow) (c : Class) (arguments : List Value) :
    Noting Value := do
  let identity := (← get).machine.objects.size
  let object ← lift (Eval.newObject c)
  match c.home? initializerName with
  | none => return object
  | some (home, method) =>
    let f ← bindMethod ⟨identity, c, home⟩ method
    let _ ← callFunction run f arguments
    return object

def applyCall (run : Option Closure → Stmt → Noting Flow) (paren : Token) (callee : Value)
    (arguments : List Value) : Noting Value := do
  match callee.arity? with
  | none => lift (Eval.raise paren .notCallable)
  | some arity =>
    if arguments.length ≠ arity then
      lift (Eval.raise paren (.wrongArity arity arguments.length))
    else match callee with
      | .function f => callFunction run f arguments
      | .class c => construct run c arguments
      | .native .clock => lift Eval.readClock
      | _ => lift (Eval.raise paren .notCallable)

def superclassValue (running : Option Closure) (s : Superclass) : Noting Class := do
  match ← lookUp running ⟨.superclass, s.id, s.name⟩ with
  | .class c => return c
  | _ => lift (Eval.raise s.name .superclassNotClass)

/-- Make a class whose methods live in a chain, and put it in place of its name. -/
def makeClass (name : Token) (methods : List FunctionDef) (chain : Chain) (parent : Option Class) :
    Noting Unit := do
  let identity ← lift Eval.freshIdentity
  let body : ClassBody := ⟨identity, name.lexeme, methodsOf chain methods⟩
  note (.made body methods parent)
  lift (Eval.assignInnermost name (.class ⟨body, (parent.map Class.lineage).getD []⟩))

def declareClass (running : Option Closure) (name : Token) (superclass : Option Superclass)
    (methods : List FunctionDef) : Noting Unit := do
  match superclass with
  | none =>
    lift (Eval.define name.lexeme .nil)
    makeClass name methods (← get).machine.chain none
  | some s =>
    let parent ← superclassValue running s
    lift (Eval.define name.lexeme .nil)
    let chain ← openScope (.parent s) (← get).machine.chain [("super", .class parent)]
    makeClass name methods chain (some parent)

def superMethod (running : Option Closure) (id : RefId) (keyword method : Token) :
    Noting Value := do
  noteRead ⟨.super, id, keyword⟩ running
  let m := (← get).machine
  match m.distances.get? id with
  | none => lift (Eval.raise keyword .superOutsideClass)
  | some distance =>
    let parent ← lift (Eval.orUndefined keyword (m.store.getAt? m.chain distance keyword.lexeme))
    match distance with
    | 0 => throw .impossible
    | inner + 1 =>
      let this : Token := .ofName "this" keyword.line
      let object ← lift (Eval.orUndefined this (m.store.getAt? m.chain inner this.lexeme))
      match parent, object with
      | .class c, .object identity origin =>
        match c.home? method.lexeme with
        | some (home, found) => return .function (← bindMethod ⟨identity, origin, home⟩ found)
        | none => lift (Eval.raise method (.undefinedProperty method.lexeme))
      | _, _ => lift (Eval.raise method (.undefinedProperty method.lexeme))

/-! ## Expressions and statements -/

mutual

/-- The value of an expression, while a function is running. -/
def evaluate (running : Option Closure) : Nat → Expr → Noting Value
  | 0, _ => throw .outOfFuel
  | fuel + 1, e =>
    match e with
    | .literal value => return value.toValue
    | .grouping inner => evaluate running fuel inner
    | .unary operator right => do
      let a ← evaluate running fuel right
      lift (applyUnary operator a)
    | .binary left operator right => do
      let a ← evaluate running fuel left
      let b ← evaluate running fuel right
      lift (applyBinary operator a b)
    | .logical left operator right => do
      let a ← evaluate running fuel left
      if shortCircuits operator a then return a else evaluate running fuel right
    | .var id name => lookUp running ⟨.var, id, name⟩
    | .assign id name value => do
      let v ← evaluate running fuel value
      noteAssigned ⟨.assign, id, name⟩ v
      lift (Eval.assign id name v)
      return v
    | .call callee paren arguments => do
      let f ← evaluate running fuel callee
      let vs ← arguments.mapM (evaluate running fuel)
      applyCall (fun running => execute running fuel) paren f vs
    | .get object name => do
      match ← evaluate running fuel object with
      | .object identity c => getProperty identity c name
      | _ => lift (Eval.raise name .noProperties)
    | .set object name value => do
      match ← evaluate running fuel object with
      | .object identity _ =>
        let v ← evaluate running fuel value
        lift (Eval.setField identity name.lexeme v)
        return v
      | _ => lift (Eval.raise name .noFields)
    | .thisRef id keyword => lookUp running ⟨.this, id, keyword⟩
    | .superRef id keyword method => superMethod running id keyword method

/-- How a statement ends, while a function is running. -/
def execute (running : Option Closure) : Nat → Stmt → Noting Flow
  | 0, _ => throw .outOfFuel
  | fuel + 1, s =>
    match s with
    | .expression value => do
      let _ ← evaluate running fuel value
      return .normal
    | .print value => do
      let v ← evaluate running fuel value
      lift (Eval.printLine v.text)
      return .normal
    | .var name none => do
      lift (Eval.define name.lexeme .nil)
      return .normal
    | .var name (some initializer) => do
      let v ← evaluate running fuel initializer
      lift (Eval.define name.lexeme v)
      return .normal
    | .block body => do
      let chain ← openScope (.block body) (← get).machine.chain []
      within chain (runAll (execute running fuel) body)
    | .ifElse condition thenBranch elseBranch => do
      let v ← evaluate running fuel condition
      if v.isTruthy then execute running fuel thenBranch
      else match elseBranch with
        | some elseBranch => execute running fuel elseBranch
        | none => return .normal
    | .loop condition body => do
      let v ← evaluate running fuel condition
      if v.isTruthy then
        match ← execute running fuel body with
        | .normal => execute running fuel (.loop condition body)
        | .broken => return .normal
        | .returned value => return .returned value
      else return .normal
    | .function definition => do
      let f ← close running definition
      lift (Eval.define definition.name.lexeme f)
      return .normal
    | .ret _ none => return .returned .nil
    | .ret _ (some value) => do
      let v ← evaluate running fuel value
      return .returned v
    | .brk _ => return .broken
    | .classDef name superclass methods => do
      declareClass running name superclass methods
      return .normal

end

/-- Run a program; no function is running then. -/
def runProgram (fuel : Nat) (program : List Stmt) : Noting Unit := do
  match ← runAll (execute none fuel) program with
  | .normal => lift Eval.flush
  | _ => throw .impossible

/-! ## The notes change nothing -/

/-- What becomes of the machine. -/
def erase (r : EStateM.Result Stop Moment α) : EStateM.Result Stop Machine α :=
  match r with
  | .ok a μ => .ok a μ.machine
  | .error stop μ => .error stop μ.machine

/-- A step does the same with and without notes. -/
def Erases (x : Noting α) (y : Eval α) : Prop := ∀ μ, erase (x μ) = y μ.machine

section

variable {β : Type} {x : Noting α} {y : Eval α}

theorem erases_lift (y : Eval α) : Erases (lift y) y := by
  intro μ
  unfold lift
  cases y μ.machine <;> rfl

theorem Erases.pure (a : α) : Erases (Pure.pure a) (Pure.pure a) := fun _ => rfl

theorem Erases.throw (stop : Stop) : Erases (throw stop : Noting α) (throw stop) := fun _ => rfl

theorem Erases.bind {k : α → Noting β} {k' : α → Eval β} (h : Erases x y)
    (hk : ∀ a, Erases (k a) (k' a)) : Erases (x >>= k) (y >>= k') := by
  intro μ
  have hx := h μ
  simp only [Bind.bind, EStateM.bind]
  cases hrun : x μ with
  | ok a μ' =>
    rw [hrun] at hx
    rw [← hx]
    exact hk a μ'
  | error stop μ' =>
    rw [hrun] at hx
    rw [← hx]
    rfl

theorem Erases.get {k : Moment → Noting α} {k' : Machine → Eval α}
    (h : ∀ μ, erase (k μ μ) = k' μ.machine μ.machine) :
    Erases (MonadState.get >>= k) (MonadState.get >>= k') := h

/-- A note in front of a step. -/
theorem Erases.after_note {k : Unit → Noting α} (e : Event) (h : Erases (k ()) y) :
    Erases (note e >>= k) y := fun μ => h { μ with log := μ.log ++ [e] }

theorem Erases.after_read {k : Unit → Noting α} (r : Reference) (running : Option Closure)
    (h : Erases (k ()) y) : Erases (noteRead r running >>= k) y :=
  fun μ => h { μ with log := μ.log ++ [.read r μ.machine running] }

theorem Erases.after_assigned {k : Unit → Noting α} (r : Reference) (v : Value)
    (h : Erases (k ()) y) : Erases (noteAssigned r v >>= k) y :=
  fun μ => h { μ with log := μ.log ++ [.assigned r v μ.machine] }

theorem Erases.after_opened {k : Unit → Noting α} (scope : Scope) (h : Erases (k ()) y) :
    Erases (noteOpened scope >>= k) y :=
  fun μ => h { μ with log := μ.log ++ [.opened scope μ.machine.store.frames.size] }

theorem Erases.within (chain : Chain) (h : Erases x y) :
    Erases (Noted.within chain x) (Eval.within chain y) := by
  intro μ
  have hx := h { μ with machine := { μ.machine with chain } }
  unfold Noted.within Eval.within
  rw [← hx]
  cases x { μ with machine := { μ.machine with chain } } <;> rfl

theorem Erases.mapM {f : β → Noting α} {g : β → Eval α} (h : ∀ b, Erases (f b) (g b))
    (bs : List β) : Erases (bs.mapM f) (bs.mapM g) := by
  induction bs with
  | nil =>
    rw [List.mapM_nil, List.mapM_nil]
    exact .pure []
  | cons b bs ih =>
    rw [List.mapM_cons, List.mapM_cons]
    refine (h b).bind fun a => ?_
    exact ih.bind fun as => .pure (a :: as)

end

theorem erases_openScope (scope : Scope) (outer : Chain) (bindings : List (String × Value)) :
    Erases (openScope scope outer bindings) (Eval.openScope outer bindings) :=
  .after_opened scope (erases_lift _)

theorem erases_lookUp (running : Option Closure) (r : Reference) :
    Erases (lookUp running r) (Eval.lookUp r.id r.token) :=
  .after_read r running (erases_lift _)

theorem erases_close (running : Option Closure) (definition : FunctionDef) :
    Erases (close running definition) (Eval.close definition) := by
  refine (erases_lift _).bind fun identity => .get fun μ => ?_
  rfl

theorem erases_bindMethod (receiver : Receiver) (method : Method) :
    Erases (bindMethod receiver method) (Eval.bindMethod method receiver.object) := by
  have h : Erases (bindMethod receiver method)
      (Eval.bindMethod method receiver.object >>= Pure.pure) :=
    .after_opened _ ((erases_lift _).bind fun f => .after_note _ (.pure f))
  rwa [bind_pure] at h

theorem erases_getProperty (identity : Nat) (c : Class) (name : Token) :
    Erases (getProperty identity c name) (Eval.getProperty identity c name) := by
  refine .get fun μ => ?_
  cases μ.machine.objects[identity]?.bind (·.find? name.lexeme) with
  | some value => rfl
  | none =>
    dsimp only
    rw [← c.map_home?]
    cases c.home? name.lexeme with
    | none => exact erases_lift _ μ
    | some found =>
      exact ((erases_bindMethod _ found.2).bind fun f => .pure (Value.function f)) μ

theorem erases_runAll {run : Stmt → Noting Flow} {run' : Stmt → Eval Flow}
    (h : ∀ s, Erases (run s) (run' s)) (ss : List Stmt) :
    Erases (runAll run ss) (Lox.runAll run' ss) := by
  induction ss with
  | nil => exact .pure Flow.normal
  | cons s ss ih =>
    refine (h s).bind fun flow => ?_
    cases flow with
    | normal => exact ih
    | returned value => exact .pure (Flow.returned value)
    | broken => exact .pure Flow.broken

section

variable {run : Option Closure → Stmt → Noting Flow} {run' : Stmt → Eval Flow}
  (h : ∀ running s, Erases (run running s) (run' s))

include h

theorem erases_callFunction (f : Closure) (arguments : List Value) :
    Erases (callFunction run f arguments) (Lox.callFunction run' f arguments) := by
  refine (erases_openScope _ _ _).bind fun chain => ?_
  have hbody := erases_runAll (h (some f)) f.definition.body
  refine (Erases.within chain hbody).bind fun flow => ?_
  exact .after_note (.ended f flow) (erases_lift (result f flow))

theorem erases_construct (c : Class) (arguments : List Value) :
    Erases (construct run c arguments) (Lox.construct run' c arguments) := by
  intro μ
  -- the new object is the one whose identity was noted
  have hobject : Eval.newObject c μ.machine = .ok (.object μ.machine.objects.size c)
      { μ.machine with objects := μ.machine.objects.push [] } := rfl
  unfold construct Lox.construct
  simp only [Bind.bind, EStateM.bind, hobject, lift, MonadState.get]
  rw [← c.map_home?]
  cases c.home? initializerName with
  | none => rfl
  | some found =>
    refine ((erases_bindMethod ⟨μ.machine.objects.size, c, found.1⟩ found.2).bind fun f => ?_) _
    refine (erases_callFunction h f arguments).bind fun _ => ?_
    exact .pure _

theorem erases_applyCall (paren : Token) (callee : Value) (arguments : List Value) :
    Erases (applyCall run paren callee arguments) (Lox.applyCall run' paren callee arguments) := by
  unfold applyCall Lox.applyCall
  cases callee.arity? with
  | none => exact erases_lift _
  | some arity =>
    by_cases hsize : arguments.length ≠ arity
    · simp only [if_pos hsize]
      exact erases_lift _
    · simp only [if_neg hsize]
      cases callee with
      | function f => exact erases_callFunction h f arguments
      | «class» c => exact erases_construct h c arguments
      | native f => cases f; exact erases_lift _
      | _ => exact erases_lift _

end

theorem erases_superclassValue (running : Option Closure) (s : Superclass) :
    Erases (superclassValue running s) (Lox.superclassValue s) := by
  refine (erases_lookUp running ⟨.superclass, s.id, s.name⟩).bind fun value => ?_
  cases value with
  | «class» c => exact .pure c
  | _ => exact erases_lift _

theorem erases_declareClass (running : Option Closure) (name : Token)
    (superclass : Option Superclass) (methods : List FunctionDef) :
    Erases (declareClass running name superclass methods)
      (Lox.declareClass name superclass methods) := by
  have hmake : ∀ (chain : Chain) (parent : Option Class),
      Erases (makeClass name methods chain parent) (do
        let identity ← Eval.freshIdentity
        let body : ClassBody := ⟨identity, name.lexeme, methodsOf chain methods⟩
        Eval.assignInnermost name (.class ⟨body, (parent.map Class.lineage).getD []⟩)) :=
    fun chain parent => (erases_lift _).bind fun _ => .after_note _ (erases_lift _)
  cases superclass with
  | none =>
    unfold declareClass Lox.declareClass
    simp only [pure_bind]
    exact (erases_lift _).bind fun _ => .get fun μ => hmake μ.machine.chain none μ
  | some s =>
    unfold declareClass Lox.declareClass
    simp only [bind_map_left]
    refine (erases_superclassValue running s).bind fun parent => ?_
    refine (erases_lift _).bind fun _ => .get fun μ => ?_
    have hopened := (erases_openScope (.parent s) μ.machine.chain
      [("super", .class parent)]).bind fun chain => hmake chain (some parent)
    exact hopened μ

theorem erases_superMethod (running : Option Closure) (id : RefId) (keyword method : Token) :
    Erases (superMethod running id keyword method) (Lox.superMethod id keyword method) := by
  refine .after_read _ running (.get fun μ => ?_)
  cases μ.machine.distances.get? id with
  | none => exact erases_lift _ μ
  | some distance =>
    refine (((erases_lift _).bind fun parent => ?_ : Erases _ _) μ)
    cases distance with
    | zero => exact .throw .impossible
    | succ inner =>
      refine (erases_lift _).bind fun object => ?_
      cases parent with
      | «class» c =>
        cases object with
        | object identity origin =>
          dsimp only
          rw [← c.map_home?]
          cases c.home? method.lexeme with
          | none => exact erases_lift _
          | some found =>
            exact (erases_bindMethod _ found.2).bind fun f => .pure (Value.function f)
        | _ => exact erases_lift _
      | _ => exact erases_lift _

section

variable {fuel : Nat} (hev : ∀ running e, Erases (evaluate running fuel e) (Lox.evaluate fuel e))
  (hrun : ∀ running s, Erases (execute running fuel s) (Lox.execute fuel s))

include hev hrun

theorem erases_evaluate_succ (running : Option Closure) (e : Expr) :
    Erases (evaluate running (fuel + 1) e) (Lox.evaluate (fuel + 1) e) := by
  cases e with
  | literal value => exact .pure value.toValue
  | grouping inner => exact hev running inner
  | unary operator right =>
    refine (hev running right).bind fun v => ?_
    exact erases_lift _
  | binary left operator right =>
    refine (hev running left).bind fun a => ?_
    refine (hev running right).bind fun b => ?_
    exact erases_lift _
  | logical left operator right =>
    refine (hev running left).bind fun a => ?_
    cases shortCircuits operator a with
    | true => exact .pure a
    | false => exact hev running right
  | var id name => exact erases_lookUp running ⟨.var, id, name⟩
  | assign id name value =>
    refine (hev running value).bind fun v => .after_assigned _ v ?_
    exact (erases_lift _).bind fun _ => .pure v
  | call callee paren arguments =>
    refine (hev running callee).bind fun f => ?_
    refine (Erases.mapM (hev running) arguments).bind fun vs => ?_
    exact erases_applyCall hrun paren f vs
  | get object name =>
    refine (hev running object).bind fun value => ?_
    cases value with
    | object identity c => exact erases_getProperty identity c name
    | _ => exact erases_lift _
  | set object name value =>
    refine (hev running object).bind fun target => ?_
    cases target with
    | object identity c =>
      refine (hev running value).bind fun v => ?_
      exact (erases_lift _).bind fun _ => .pure v
    | _ => exact erases_lift _
  | thisRef id keyword => exact erases_lookUp running ⟨.this, id, keyword⟩
  | superRef id keyword method => exact erases_superMethod running id keyword method

theorem erases_execute_succ (running : Option Closure) (s : Stmt) :
    Erases (execute running (fuel + 1) s) (Lox.execute (fuel + 1) s) := by
  have hnormal : Erases (pure Flow.normal) (pure Flow.normal) := .pure Flow.normal
  cases s with
  | expression value =>
    refine (hev running value).bind fun v => ?_
    exact hnormal
  | print value =>
    refine (hev running value).bind fun v => ?_
    exact (erases_lift _).bind fun _ => hnormal
  | var name initializer =>
    cases initializer with
    | none => exact (erases_lift _).bind fun _ => hnormal
    | some initializer =>
      refine (hev running initializer).bind fun v => ?_
      exact (erases_lift _).bind fun _ => hnormal
  | block body =>
    refine .get fun μ => ?_
    have hblock := (erases_openScope (.block body) μ.machine.chain []).bind fun chain =>
      Erases.within chain (erases_runAll (hrun running) body)
    exact hblock μ
  | ifElse condition thenBranch elseBranch =>
    refine (hev running condition).bind fun v => ?_
    cases v.isTruthy with
    | true => exact hrun running thenBranch
    | false =>
      cases elseBranch with
      | none => exact hnormal
      | some elseBranch => exact hrun running elseBranch
  | loop condition body =>
    refine (hev running condition).bind fun v => ?_
    cases v.isTruthy with
    | true =>
      refine (hrun running body).bind fun flow => ?_
      cases flow with
      | normal => exact hrun running (.loop condition body)
      | broken => exact hnormal
      | returned value => exact .pure (Flow.returned value)
    | false => exact hnormal
  | function definition =>
    refine (erases_close running definition).bind fun f => ?_
    exact (erases_lift _).bind fun _ => hnormal
  | ret keyword value =>
    cases value with
    | none => exact .pure (Flow.returned .nil)
    | some value =>
      refine (hev running value).bind fun v => ?_
      exact .pure (Flow.returned v)
  | brk keyword => exact .pure Flow.broken
  | classDef name superclass methods =>
    refine (erases_declareClass running name superclass methods).bind fun _ => ?_
    exact hnormal

end

/-- Expressions have the same values with and without notes, and statements end in the same way. -/
theorem erases_evaluate_execute (fuel : Nat) :
    (∀ running e, Erases (evaluate running fuel e) (Lox.evaluate fuel e)) ∧
      ∀ running s, Erases (execute running fuel s) (Lox.execute fuel s) := by
  induction fuel with
  | zero => exact ⟨fun _ _ => .throw .outOfFuel, fun _ _ => .throw .outOfFuel⟩
  | succ fuel ih =>
    obtain ⟨hev, hrun⟩ := ih
    exact ⟨erases_evaluate_succ hev hrun, erases_execute_succ hev hrun⟩

theorem erases_evaluate (running : Option Closure) (fuel : Nat) (e : Expr) :
    Erases (evaluate running fuel e) (Lox.evaluate fuel e) :=
  (erases_evaluate_execute fuel).1 running e

theorem erases_execute (running : Option Closure) (fuel : Nat) (s : Stmt) :
    Erases (execute running fuel s) (Lox.execute fuel s) :=
  (erases_evaluate_execute fuel).2 running s

theorem erases_runProgram (fuel : Nat) (program : List Stmt) :
    Erases (runProgram fuel program) (Lox.runProgram fuel program) := by
  refine (erases_runAll (erases_execute none fuel) program).bind fun flow => ?_
  cases flow with
  | normal => exact erases_lift _
  | returned value => exact .throw .impossible
  | broken => exact .throw .impossible

end Noted

end Lox
