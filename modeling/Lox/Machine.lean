import Lox.Distances
import Lox.Error
import Lox.Output
import Lox.Value

set_option autoImplicit false

/-! # The machine

All that a running program can read and change: the frames of its scopes, the fields of its
objects, the scope it is in, its output and the clock. `Eval` is a step of the machine: it gives a
result, or stops the program. What was changed before a stop stays changed. -/

namespace Lox

/-- The readings of the clock, in seconds. A clock that cannot be read, as one set to a time before
    1970, is not modelled. -/
structure Clock where
  reading : Nat → Float
  /-- How often the clock has been read. -/
  reads : Nat

structure Machine where
  store : Store Value
  /-- The fields of the objects, by identity. -/
  objects : Array (Bindings Value)
  /-- The identity of the next function or class. -/
  nextIdentity : Nat
  /-- The scope the program is in. -/
  chain : Chain
  /-- The distances of the references resolved so far. -/
  distances : Distances
  output : Output
  clock : Clock

/-- Why a program stops before its end. -/
inductive Stop where
  | error (e : Error)
  /-- A state that no resolved program reaches. -/
  | impossible
  /-- The bound on the number of steps was too small. -/
  | outOfFuel

/-- A step of the machine. -/
abbrev Eval := EStateM Stop Machine

/-- The global scope. -/
def globalChain : Chain := [0]

/-- A machine before its first program: the global scope holds the functions of the language. -/
def Machine.start (output : Output) (reading : Nat → Float) : Machine where
  store := ((Store.empty.openIn []).2).define globalChain Native.clock.name (.native .clock)
  objects := #[]
  nextIdentity := 0
  chain := globalChain
  distances := .empty
  output := output
  clock := ⟨reading, 0⟩

namespace Eval

variable {α : Type}

/-- A step that looks at the machine first. -/
theorem get_bind (k : Machine → Eval α) (m : Machine) : (get >>= k) m = k m m := rfl

/-! ## Stops -/

/-- Stop with a problem at a token. -/
def raise (token : Token) (problem : RuntimeProblem) : Eval α :=
  throw (.error (.runtime token problem))

/-- Take what is there, or stop because a variable is not defined. -/
def orUndefined (name : Token) : Option α → Eval α
  | some a => pure a
  | none => raise name (.undefinedVariable name.lexeme)

/-! ## Variables -/

/-- Bind a name in the current scope. -/
def define (name : String) (value : Value) : Eval Unit :=
  modify fun m => { m with store := m.store.define m.chain name value }

/-- The value of a variable: in the scope as far out as was found, or in the global scope. -/
def lookUp (id : RefId) (name : Token) : Eval Value := do
  let m ← get
  orUndefined name <| match m.distances.get? id with
    | some distance => m.store.getAt? m.chain distance name.lexeme
    | none => m.store.get? globalChain name.lexeme

/-- Bind a name in a frame. -/
def bindIn (frame : FrameId) (name : String) (value : Value) : Eval Unit :=
  modify fun m => { m with store := m.store.bindIn frame name value }

/-- Change a variable: in the scope as far out as was found, or in the global scope. -/
def assign (id : RefId) (name : Token) (value : Value) : Eval Unit := do
  let m ← get
  let frame ← orUndefined name <| match m.distances.get? id with
    | some distance => m.store.homeAt? m.chain distance name.lexeme
    | none => m.store.home? globalChain name.lexeme
  bindIn frame name.lexeme value

/-- Change the innermost variable of a name. -/
def assignInnermost (name : Token) (value : Value) : Eval Unit := do
  let m ← get
  let frame ← orUndefined name (m.store.home? m.chain name.lexeme)
  bindIn frame name.lexeme value

/-! ## Scopes -/

/-- Open a scope inside a chain, with some names bound. -/
def openScope (outer : Chain) (bindings : List (String × Value)) : Eval Chain :=
  modifyGet fun m =>
    let (chain, store) := m.store.openIn outer
    let store := bindings.foldl (fun store (name, value) => store.define chain name value) store
    (chain, { m with store })

/-- Run a step in a scope. However the step ends, the scope is afterwards what it was before. -/
def within (chain : Chain) (step : Eval α) : Eval α := fun m =>
  match step { m with chain } with
  | .ok a m' => .ok a { m' with chain := m.chain }
  | .error stop m' => .error stop { m' with chain := m.chain }

/-! ## Functions, classes and objects -/

/-- An identity that no function or class has yet. -/
def freshIdentity : Eval Nat :=
  modifyGet fun m => (m.nextIdentity, { m with nextIdentity := m.nextIdentity + 1 })

/-- The function of a declaration in the current scope. -/
def close (definition : FunctionDef) : Eval Value := do
  let identity ← freshIdentity
  return .function ⟨identity, definition, (← get).chain, false⟩

/-- Bind a method to an object: a new function, in a scope that has the object as `this`. -/
def bindMethod (method : Method) (object : Value) : Eval Closure := do
  let chain ← openScope method.chain [("this", object)]
  let identity ← freshIdentity
  return ⟨identity, method.definition, chain, method.definition.isInitializer⟩

/-- A new object without fields. -/
def newObject (c : Class) : Eval Value :=
  modifyGet fun m => (.object m.objects.size c, { m with objects := m.objects.push [] })

/-- A property of an object: a field, or else a method bound to the object. -/
def getProperty (identity : Nat) (c : Class) (name : Token) : Eval Value := do
  let m ← get
  match m.objects[identity]?.bind (·.find? name.lexeme) with
  | some value => return value
  | none =>
    match c.method? name.lexeme with
    | some method => return .function (← bindMethod method (.object identity c))
    | none => raise name (.undefinedProperty name.lexeme)

/-- Change or add a field of an object. -/
def setField (identity : Nat) (name : String) (value : Value) : Eval Unit :=
  modify fun m => { m with objects := m.objects.modify identity (·.bind name value) }

/-! ## Output and clock -/

/-- Write a chunk. -/
def write (chunk : String) : Eval Unit := do
  if (← get).output.accepts chunk then
    modify fun m => { m with output := m.output.append chunk }
  else throw (.error (.output .full))

/-- Write a text and a line end. -/
def printLine (text : String) : Eval Unit := do
  write text
  write "\n"

/-- Flush the output. -/
def flush : Eval Unit := do
  if (← get).output.flushFails then throw (.error (.output .notFlushed))

/-- Read the clock. This never stops the program (`Clock`). -/
def readClock : Eval Value :=
  modifyGet fun m =>
    (.number (m.clock.reading m.clock.reads),
     { m with clock := { m.clock with reads := m.clock.reads + 1 } })

end Eval

end Lox
