import Lox.Bindings
import Lox.Scope
import Lox.Tree

set_option autoImplicit false

/-! # Values

The values of a running program. Functions, classes and objects have an identity, by which they are
compared. A function keeps the chain of scopes in which it was made. A class keeps its methods and
those of its ancestors; once made, it does not change. The fields of an object live elsewhere. -/

namespace Lox

/-- Functions that come with the language. -/
inductive Native where
  | clock
  deriving DecidableEq

def Native.name : Native → String
  | clock => "clock"

def Native.arity : Native → Nat
  | clock => 0

/-- A method of a class, not yet bound to an object. -/
structure Method where
  definition : FunctionDef
  chain : Chain

/-- A function with the scopes it was made in. An initializer gives back its object whatever its
    body returns. -/
structure Closure where
  identity : Nat
  definition : FunctionDef
  chain : Chain
  isInitializer : Bool

/-- What a class declares itself. -/
structure ClassBody where
  identity : Nat
  name : String
  methods : Bindings Method

/-- A class and its ancestors, the nearest first. -/
structure Class where
  body : ClassBody
  ancestors : List ClassBody

/-- A value. An object is an identity and the class it was made from. -/
inductive Value where
  | nil
  | bool (b : Bool)
  | number (x : Float)
  | string (s : String)
  | native (f : Native)
  | function (f : Closure)
  | class (c : Class)
  | object (identity : Nat) (c : Class)

/-! ## Classes -/

namespace Class

/-- The class and its ancestors. -/
def lineage (c : Class) : List ClassBody := c.body :: c.ancestors

/-- A method by name: the one of the nearest class that declares it. -/
def method? (c : Class) (name : String) : Option Method :=
  c.lineage.findSome? (·.methods.find? name)

/-- A class takes what its initializer takes. -/
def arity (c : Class) : Nat :=
  match c.method? initializerName with
  | some m => m.definition.params.length
  | none => 0

end Class

/-- The methods of a class. Of two with one name, the later counts. -/
def methodsOf (chain : Chain) (definitions : List FunctionDef) : Bindings Method :=
  definitions.foldl (fun methods f => methods.bind f.name.lexeme ⟨f, chain⟩) []

/-! ## Properties of values -/

namespace Value

/-- All values but nil and false count as true. -/
def isTruthy : Value → Bool
  | nil => false
  | bool b => b
  | _ => true

/-- Whether two values are equal: values of different types never are, functions, classes and
    objects only if they are the same one. -/
def equals : Value → Value → Bool
  | nil, nil => true
  | bool a, bool b => a == b
  | number a, number b => a == b
  | string a, string b => a == b
  | native a, native b => a == b
  | function a, function b => a.identity == b.identity
  | .class a, .class b => a.body.identity == b.body.identity
  | object a _, object b _ => a == b
  | _, _ => false

/-- The text of a value. -/
def text : Value → String
  | nil => "nil"
  | bool b => if b then "true" else "false"
  | number x => Number.printed.write x
  | string s => s
  | native f => "<native fn " ++ f.name ++ ">"
  | function f => "<fn " ++ f.definition.name.lexeme ++ ">"
  | .class c => "<class " ++ c.body.name ++ ">"
  | object _ c => "<" ++ c.body.name ++ " instance>"

/-- The number of arguments of a value that can be called. -/
def arity? : Value → Option Nat
  | native f => some f.arity
  | function f => some f.definition.params.length
  | .class c => some c.arity
  | _ => none

end Value

/-- The value of a constant. -/
def Literal.toValue : Literal → Value
  | number x => .number x
  | string s => .string s
  | bool b => .bool b
  | nil => .nil

end Lox
