import Lox.Machine

set_option autoImplicit false

/-! # Evaluation

What expressions and statements mean. `evaluate` gives the value of an expression, `execute` says
how a statement ends: normally, at a `return` with a value, or at a `break`.

Programs need not end, so both are given fuel, a bound on the depth of steps. A bound that is too
small stops the machine with `outOfFuel`; every larger bound than one that suffices gives the same
result (`approximates_of_le`). -/

namespace Lox

open Eval

/-- How a statement ends. -/
inductive Flow where
  | normal
  | returned (value : Value)
  | broken

/-! ## Operators -/

def applyUnary (operator : Token) (right : Value) : Eval Value :=
  match operator.kind, right with
  | .minus, .number x => pure (.number (-x))
  | .minus, _ => raise operator .operandNotNumber
  | .bang, _ => pure (.bool (!right.isTruthy))
  | _, _ => raise operator .notUnaryOperator

/-- The operators on two numbers. -/
def arithmetic? (kind : Kind) (a b : Float) : Option Value :=
  match kind with
  | .minus => some (.number (a - b))
  | .star => some (.number (a * b))
  | .slash => some (.number (a / b))
  | .less => some (.bool (a < b))
  | .lessEqual => some (.bool (a ≤ b))
  | .greater => some (.bool (b < a))
  | .greaterEqual => some (.bool (b ≤ a))
  | _ => none

def applyBinary (operator : Token) (left right : Value) : Eval Value :=
  match operator.kind, left, right with
  | .plus, .number a, .number b => pure (.number (a + b))
  | .plus, .string a, .string b => pure (.string (a ++ b))
  | .plus, _, _ => raise operator .operandsNotAddable
  | .equalEqual, _, _ => pure (.bool (left.equals right))
  | .bangEqual, _, _ => pure (.bool (!left.equals right))
  | kind, .number a, .number b =>
    match arithmetic? kind a b with
    | some value => pure value
    | none => raise operator .notBinaryOperator
  | _, _, _ => raise operator .operandsNotNumbers

/-- Whether a logical operator takes its left operand for the result. -/
def shortCircuits (operator : Token) (left : Value) : Bool :=
  if operator.kind.sameAs .orKw then left.isTruthy else !left.isTruthy

/-! ## Calls -/

/-- Run statements in order until one does not end normally. -/
def runAll (run : Stmt → Eval Flow) : List Stmt → Eval Flow
  | [] => pure .normal
  | s :: ss => do
    match ← run s with
    | .normal => runAll run ss
    | flow => return flow

/-- The result of a function whose body has ended. An initializer gives back its object. -/
def result (f : Closure) (flow : Flow) : Eval Value := do
  if f.isInitializer then
    let this : Token := .ofName "this" f.definition.name.line
    orUndefined this ((← get).store.getAt? f.chain 0 this.lexeme)
  else
    match flow with
    | .normal => return .nil
    | .returned value => return value
    | .broken => throw .impossible

/-- Call a function: its body runs in a new scope that binds the parameters. -/
def callFunction (run : Stmt → Eval Flow) (f : Closure) (arguments : List Value) : Eval Value := do
  let names := f.definition.params.map (·.lexeme)
  let chain ← openScope f.chain (names.zip arguments)
  let flow ← within chain (runAll run f.definition.body)
  result f flow

/-- Call a class: make an object and run the initializer on it, if there is one. -/
def construct (run : Stmt → Eval Flow) (c : Class) (arguments : List Value) : Eval Value := do
  let object ← newObject c
  match c.method? initializerName with
  | none => return object
  | some method =>
    let f ← bindMethod method object
    let _ ← callFunction run f arguments
    return object

/-- Call a value, which must be callable and take as many arguments as there are. -/
def applyCall (run : Stmt → Eval Flow) (paren : Token) (callee : Value) (arguments : List Value) :
    Eval Value := do
  match callee.arity? with
  | none => raise paren .notCallable
  | some arity =>
    if arguments.length ≠ arity then raise paren (.wrongArity arity arguments.length)
    else match callee with
      | .function f => callFunction run f arguments
      | .class c => construct run c arguments
      | .native .clock => readClock
      | _ => raise paren .notCallable

/-! ## Classes -/

/-- The value of a superclass clause. -/
def superclassValue (s : Superclass) : Eval Class := do
  match ← lookUp s.id s.name with
  | .class c => return c
  | _ => raise s.name .superclassNotClass

/-- Declare a class. The name is bound before the methods are made. The methods of a class with a
    superclass live in a scope of their own, which has the superclass as `super`. -/
def declareClass (name : Token) (superclass : Option Superclass) (methods : List FunctionDef) :
    Eval Unit := do
  let parent ← match superclass with
    | none => pure none
    | some s => some <$> superclassValue s
  define name.lexeme .nil
  let here := (← get).chain
  let chain ← match parent with
    | none => pure here
    | some c => openScope here [("super", .class c)]
  let identity ← freshIdentity
  let body : ClassBody := ⟨identity, name.lexeme, methodsOf chain methods⟩
  assignInnermost name (.class ⟨body, (parent.map Class.lineage).getD []⟩)

/-- A method of the superclass, bound to the current object. The scope with the object lies just
    inside the scope with the superclass. -/
def superMethod (id : RefId) (keyword method : Token) : Eval Value := do
  let m ← get
  match m.distances.get? id with
  | none => raise keyword .superOutsideClass
  | some distance =>
    let parent ← orUndefined keyword (m.store.getAt? m.chain distance keyword.lexeme)
    match distance with
    | 0 => throw .impossible
    | inner + 1 =>
      let this : Token := .ofName "this" keyword.line
      let object ← orUndefined this (m.store.getAt? m.chain inner this.lexeme)
      match parent, object with
      | .class c, .object _ _ =>
        match c.method? method.lexeme with
        | some found => return .function (← bindMethod found object)
        | none => raise method (.undefinedProperty method.lexeme)
      | _, _ => raise method (.undefinedProperty method.lexeme)

/-! ## Expressions and statements -/

mutual

/-- The value of an expression. -/
def evaluate : Nat → Expr → Eval Value
  | 0, _ => throw .outOfFuel
  | fuel + 1, e =>
    match e with
    | .literal value => return value.toValue
    | .grouping inner => evaluate fuel inner
    | .unary operator right => do applyUnary operator (← evaluate fuel right)
    | .binary left operator right => do
      let a ← evaluate fuel left
      let b ← evaluate fuel right
      applyBinary operator a b
    | .logical left operator right => do
      let a ← evaluate fuel left
      if shortCircuits operator a then return a else evaluate fuel right
    | .var id name => lookUp id name
    | .assign id name value => do
      let v ← evaluate fuel value
      assign id name v
      return v
    | .call callee paren arguments => do
      let f ← evaluate fuel callee
      let vs ← arguments.mapM (evaluate fuel)
      applyCall (execute fuel) paren f vs
    | .get object name => do
      match ← evaluate fuel object with
      | .object identity c => getProperty identity c name
      | _ => raise name .noProperties
    | .set object name value => do
      match ← evaluate fuel object with
      | .object identity _ =>
        let v ← evaluate fuel value
        setField identity name.lexeme v
        return v
      | _ => raise name .noFields
    | .thisRef id keyword => lookUp id keyword
    | .superRef id keyword method => superMethod id keyword method

/-- How a statement ends. -/
def execute : Nat → Stmt → Eval Flow
  | 0, _ => throw .outOfFuel
  | fuel + 1, s =>
    match s with
    | .expression value => do
      let _ ← evaluate fuel value
      return .normal
    | .print value => do
      printLine (← evaluate fuel value).text
      return .normal
    | .var name none => do
      define name.lexeme .nil
      return .normal
    | .var name (some initializer) => do
      define name.lexeme (← evaluate fuel initializer)
      return .normal
    | .block body => do
      let chain ← openScope (← get).chain []
      within chain (runAll (execute fuel) body)
    | .ifElse condition thenBranch elseBranch => do
      if (← evaluate fuel condition).isTruthy then execute fuel thenBranch
      else match elseBranch with
        | some elseBranch => execute fuel elseBranch
        | none => return .normal
    | .loop condition body => do
      if (← evaluate fuel condition).isTruthy then
        match ← execute fuel body with
        | .normal => execute fuel (.loop condition body)
        | .broken => return .normal
        | .returned value => return .returned value
      else return .normal
    | .function definition => do
      define definition.name.lexeme (← close definition)
      return .normal
    | .ret _ none => return .returned .nil
    | .ret _ (some value) => return .returned (← evaluate fuel value)
    | .brk _ => return .broken
    | .classDef name superclass methods => do
      declareClass name superclass methods
      return .normal

end

/-- Run a resolved program from its first to its last statement and flush the output. -/
def runProgram (fuel : Nat) (program : List Stmt) : Eval Unit := do
  match ← runAll (execute fuel) program with
  | .normal => flush
  | _ => throw .impossible

end Lox
