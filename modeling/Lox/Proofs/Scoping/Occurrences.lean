import Lox.Resolve

set_option autoImplicit false

/-! # What the static rules are about

A program breaks a static rule at an occurrence of one of a few constructs: a `return`, a `break`,
`this`, `super`, a superclass clause, a declaration, or a variable that is read. Whether it does
depends on what is around the occurrence. Both are read off the text here: the occurrences in the
order in which resolving comes by them, each with what is around it (`Surroundings`), and for a
single occurrence the rule that it breaks (`Occurrence.violation?`).

Nothing is kept up to date and set back in this description: what is around a construct is handed
down to its parts. -/

namespace Lox

/-! ## Occurrences -/

/-- What is around a point of a program, as far as the rules ask. -/
structure Surroundings where
  body : BodySort
  classSort : ClassSort
  /-- Whether the point is in the body of a loop of its function. -/
  inLoop : Bool
  /-- The names declared before the point in its scope, unless that is the global scope. -/
  names : Option (List String)
  /-- The variable whose initializer the point is in. -/
  initializing : Option String

/-- What is around a program. -/
def Surroundings.start : Surroundings where
  body := .topLevel
  classSort := .noClass
  inLoop := false
  names := none
  initializing := none

/-- What is around the points behind declarations of some names. -/
def Surroundings.behind (around : Surroundings) (names : List String) : Surroundings :=
  { around with names := around.names.map (· ++ names) }

/-- The constructs that have rules. -/
inductive Construct where
  | ret (keyword : Token) (hasValue : Bool)
  | brk (keyword : Token)
  | this (keyword : Token)
  | super (keyword : Token)
  /-- The superclass clause of a class. -/
  | superclass (name className : Token)
  /-- The declaration of a variable, a function, a class or a parameter. -/
  | declaration (name : Token)
  | read (name : Token)

structure Occurrence where
  construct : Construct
  around : Surroundings

namespace Surroundings

/-- What is around the initializer of a variable. -/
def initializer (around : Surroundings) (name : String) : Surroundings :=
  { around with initializing := some name }

/-- Whether a name is declared before a point in its scope. There is no such name where the scope is
    the global one, in which a name may be declared again. -/
def has (around : Surroundings) (name : String) : Bool := around.names.any (·.contains name)

/-- Whether a variable is being declared for the first time in a scope that is not global. -/
def initializes (around : Surroundings) (name : String) : Bool :=
  around.names.isSome && around.initializing == some name && !around.has name

end Surroundings

/-- The rule that an occurrence breaks, and the token at which it does. -/
def Occurrence.violation? : Occurrence → Option (Token × StaticProblem)
  | ⟨.ret keyword hasValue, around⟩ =>
    match around.body with
    | .topLevel => some (keyword, .returnOutsideFunction)
    | .initializer => if hasValue then some (keyword, .returnValueFromInitializer) else none
    | .function | .method => none
  | ⟨.brk keyword, around⟩ => if around.inLoop then none else some (keyword, .breakOutsideLoop)
  | ⟨.this keyword, around⟩ =>
    match around.classSort with
    | .noClass => some (keyword, .thisOutsideClass)
    | .plain | .derived => none
  | ⟨.super keyword, around⟩ =>
    match around.classSort with
    | .noClass => some (keyword, .superOutsideClass)
    | .plain => some (keyword, .superWithoutSuperclass)
    | .derived => none
  | ⟨.superclass name className, _⟩ =>
    if name.lexeme = className.lexeme then some (name, .inheritsFromItself) else none
  | ⟨.declaration name, around⟩ =>
    if around.has name.lexeme then some (name, .alreadyDeclared) else none
  | ⟨.read name, around⟩ =>
    if around.initializes name.lexeme then some (name, .readInOwnInitializer) else none

/-- The rules that some occurrences break, in order. -/
def violations (occurrences : List Occurrence) : List (Token × StaticProblem) :=
  occurrences.filterMap Occurrence.violation?

@[simp] theorem violations_nil : violations [] = [] := rfl

@[simp] theorem violations_append (os os' : List Occurrence) :
    violations (os ++ os') = violations os ++ violations os' := List.filterMap_append

theorem violations_cons (o : Occurrence) (os : List Occurrence) :
    violations (o :: os) = violations [o] ++ violations os :=
  violations_append [o] os

/-! ## Expressions -/

mutual

/-- The constructs of an expression. The value of a property assignment comes before its object. -/
def Expr.constructs : Expr → List Construct
  | .literal _ => []
  | .grouping inner => inner.constructs
  | .unary _ right => right.constructs
  | .binary left _ right => left.constructs ++ right.constructs
  | .logical left _ right => left.constructs ++ right.constructs
  | .var _ name => [.read name]
  | .assign _ _ value => value.constructs
  | .call callee _ arguments => callee.constructs ++ exprConstructs arguments
  | .get object _ => object.constructs
  | .set object _ value => value.constructs ++ object.constructs
  | .thisRef _ keyword => [.this keyword]
  | .superRef _ keyword _ => [.super keyword]

def exprConstructs : List Expr → List Construct
  | [] => []
  | e :: es => e.constructs ++ exprConstructs es

end

def optionConstructs : Option Expr → List Construct
  | none => []
  | some e => e.constructs

/-- Occurrences that stand at one point. -/
def occurrencesAt (around : Surroundings) (constructs : List Construct) : List Occurrence :=
  constructs.map (⟨·, around⟩)

theorem occurrencesAt_append (around : Surroundings) (cs cs' : List Construct) :
    occurrencesAt around (cs ++ cs') = occurrencesAt around cs ++ occurrencesAt around cs' :=
  List.map_append

/-! ## Statements -/

/-- The names that a statement declares in the scope in which it stands. -/
def Stmt.declared : Stmt → List String
  | .var name _ => [name.lexeme]
  | .function definition => [definition.name.lexeme]
  | .classDef name _ _ => [name.lexeme]
  | .ifElse _ thenBranch none => thenBranch.declared
  | .ifElse _ thenBranch (some elseBranch) => thenBranch.declared ++ elseBranch.declared
  | .loop _ body => body.declared
  | .expression _ | .print _ | .block _ | .ret _ _ | .brk _ => []

/-- What the innermost class is within the methods of a class. -/
def ClassSort.within : Option Superclass → ClassSort
  | none => .plain
  | some _ => .derived

/-- What is around the parameters of a function. -/
def Surroundings.within (around : Surroundings) (sort : BodySort) : Surroundings :=
  { around with body := sort, inLoop := false, names := some [] }

/-- Parameters are declared one after the other. -/
def paramOccurrences (around : Surroundings) : List Token → List Occurrence
  | [] => []
  | p :: ps => ⟨.declaration p, around⟩ :: paramOccurrences (around.behind [p.lexeme]) ps

mutual

/-- The occurrences in a statement. A variable is declared in front of its initializer, a class in
    front of its superclass clause. -/
def Stmt.occurrences (around : Surroundings) : Stmt → List Occurrence
  | .expression value => occurrencesAt around value.constructs
  | .print value => occurrencesAt around value.constructs
  | .var name initializer =>
    ⟨.declaration name, around⟩ ::
      occurrencesAt (around.initializer name.lexeme) (optionConstructs initializer)
  | .block body => stmtOccurrences { around with names := some [] } body
  | .ifElse condition thenBranch none =>
    occurrencesAt around condition.constructs ++ thenBranch.occurrences around
  | .ifElse condition thenBranch (some elseBranch) =>
    occurrencesAt around condition.constructs ++ thenBranch.occurrences around ++
      elseBranch.occurrences (around.behind thenBranch.declared)
  | .loop condition body =>
    occurrencesAt around condition.constructs ++ body.occurrences { around with inLoop := true }
  | .function definition =>
    ⟨.declaration definition.name, around⟩ :: definition.occurrences around .function
  | .ret keyword value =>
    ⟨.ret keyword value.isSome, around⟩ :: occurrencesAt around (optionConstructs value)
  | .brk keyword => [⟨.brk keyword, around⟩]
  | .classDef name superclass methods =>
    ⟨.declaration name, around⟩ ::
      superclass.toList.map (⟨.superclass ·.name name, around⟩) ++
        methodOccurrences { around with classSort := .within superclass } methods

def stmtOccurrences (around : Surroundings) : List Stmt → List Occurrence
  | [] => []
  | s :: ss => s.occurrences around ++ stmtOccurrences (around.behind s.declared) ss

/-- The occurrences in a function. Its parameters and its body are one scope, and the loops around
    it are not around its body. -/
def FunctionDef.occurrences (around : Surroundings) : FunctionDef → BodySort → List Occurrence
  | ⟨_, params, body⟩, sort =>
    paramOccurrences (around.within sort) params ++
      stmtOccurrences ((around.within sort).behind (params.map Token.lexeme)) body

def methodOccurrences (around : Surroundings) : List FunctionDef → List Occurrence
  | [] => []
  | f :: fs =>
    f.occurrences around (if f.isInitializer then .initializer else .method) ++
      methodOccurrences around fs

end

/-- The static rules that a program breaks. -/
def staticViolations (program : List Stmt) : List (Token × StaticProblem) :=
  violations (stmtOccurrences .start program)

end Lox
