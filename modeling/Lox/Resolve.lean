import Lox.Bindings
import Lox.Distances
import Lox.Error

set_option autoImplicit false

/-! # Resolving names

Before a program runs, its names are resolved: a walk over the tree keeps the names declared so far
in each open scope, records for each reference how many scopes out its name is declared, and reports
what is wrong although the syntax is right.

The scopes of the walk are those that will exist when the program runs: one for a block, one for
the parameters and the body of a function, one for `super` around the methods of a class with a
superclass, and one for `this` around each method. The global scope is not among them; a name found
in no scope is global. -/

namespace Lox

/-! ## The walk -/

/-- The names declared in a scope. A name is not ready until its initializer has been read. -/
abbrev DeclaredNames := Bindings Bool

/-- What the innermost function around a point is. -/
inductive BodySort where
  | topLevel
  | function
  | method
  | initializer
  deriving DecidableEq

/-- What the innermost class around a point is. -/
inductive ClassSort where
  | noClass
  | plain
  | derived
  deriving DecidableEq

/-- The state of the walk: the scopes, the innermost first; what is around the current point; what
    was found so far. -/
structure Walk where
  scopes : List DeclaredNames
  body : BodySort
  classSort : ClassSort
  /-- The number of loops around the point within its function. -/
  loops : Nat
  /-- Whether a problem has been reported. -/
  failed : Bool
  problems : Array (Token × StaticProblem)
  distances : Distances

namespace Walk

/-- The start of a program, where some distances are known from earlier programs. -/
def start (distances : Distances) : Walk where
  scopes := []
  body := .topLevel
  classSort := .noClass
  loops := 0
  failed := false
  problems := #[]
  distances := distances

/-- Report a problem at a token. -/
def report (token : Token) (problem : StaticProblem) (w : Walk) : Walk :=
  { w with failed := true, problems := w.problems.push (token, problem) }

/-- Report a problem at a token if there is one. -/
def reportIf (bad : Bool) (token : Token) (problem : StaticProblem) (w : Walk) : Walk :=
  if bad then w.report token problem else w

/-! ### Scopes -/

def enterScope (w : Walk) : Walk := { w with scopes := [] :: w.scopes }

def leaveScope (w : Walk) : Walk := { w with scopes := w.scopes.tail }

/-- Put a name into the innermost scope. Global names are not kept. -/
def put (name : String) (ready : Bool) (w : Walk) : Walk :=
  match w.scopes with
  | [] => w
  | scope :: outer => { w with scopes := scope.bind name ready :: outer }

/-- What is known of a name in the innermost scope. -/
def innermost? (w : Walk) (name : String) : Option Bool := w.scopes.head?.bind (·.find? name)

/-- Declare a name that is not ready yet. A scope has each name once. -/
def declare (name : Token) (w : Walk) : Walk :=
  if (w.innermost? name.lexeme).isSome then w.report name .alreadyDeclared
  else w.put name.lexeme false

/-- Make a name ready. -/
def define (name : Token) (w : Walk) : Walk := w.put name.lexeme true

/-- The number of scopes between the innermost and the one that has a name. -/
def distance? (w : Walk) (name : String) : Option Nat :=
  w.scopes.findIdx? fun scope => (scope.find? name).isSome

/-- Record how far out the binding of a reference lies, if it is not global. -/
def locate (id : RefId) (name : Token) (w : Walk) : Walk :=
  match w.distance? name.lexeme with
  | some distance => { w with distances := w.distances.record id distance }
  | none => w

end Walk

/-! ## Expressions -/

mutual

/-- Resolve an expression. The value of an assignment comes before its target. -/
def Expr.resolve : Expr → Walk → Walk
  | .literal _, w => w
  | .grouping inner, w => inner.resolve w
  | .unary _ right, w => right.resolve w
  | .binary left _ right, w => right.resolve (left.resolve w)
  | .logical left _ right, w => right.resolve (left.resolve w)
  | .var id name, w =>
    (w.reportIf (w.innermost? name.lexeme == some false) name .readInOwnInitializer).locate id name
  | .assign id name value, w => (value.resolve w).locate id name
  | .call callee _ arguments, w => resolveExprs arguments (callee.resolve w)
  | .get object _, w => object.resolve w
  | .set object _ value, w => object.resolve (value.resolve w)
  | .thisRef id keyword, w =>
    match w.classSort with
    | .noClass => w.report keyword .thisOutsideClass
    | _ => w.locate id keyword
  | .superRef id keyword _, w =>
    match w.classSort with
    | .noClass => (w.report keyword .superOutsideClass).locate id keyword
    | .plain => (w.report keyword .superWithoutSuperclass).locate id keyword
    | .derived => w.locate id keyword

def resolveExprs : List Expr → Walk → Walk
  | [], w => w
  | e :: es, w => resolveExprs es (e.resolve w)

end

/-- Resolve an expression that may be left out. -/
def resolveOption : Option Expr → Walk → Walk
  | none, w => w
  | some e, w => e.resolve w

/-! ## Statements -/

/-- Declare parameters, each ready at once. -/
def resolveParams : List Token → Walk → Walk
  | [], w => w
  | p :: ps, w => resolveParams ps ((w.declare p).define p)

/-- Go from a class declaration into the scopes of its methods. The superclass is resolved outside
    of them. -/
def enterClass (name : Token) (superclass : Option Superclass) (w : Walk) : Walk :=
  let w := { (w.declare name).define name with classSort := .plain }
  match superclass with
  | none => w.enterScope.put "this" true
  | some s =>
    let w := (w.reportIf (s.name.lexeme == name.lexeme) s.name .inheritsFromItself).locate s.id s.name
    (({ w with classSort := .derived }.enterScope.put "super" true).enterScope).put "this" true

/-- Leave the scopes of the methods of a class. -/
def leaveClass (superclass : Option Superclass) (outer : ClassSort) (w : Walk) : Walk :=
  let w := match superclass with
    | none => w.leaveScope
    | some _ => w.leaveScope.leaveScope
  { w with classSort := outer }

mutual

def Stmt.resolve : Stmt → Walk → Walk
  | .expression value, w => value.resolve w
  | .print value, w => value.resolve w
  | .var name initializer, w => (resolveOption initializer (w.declare name)).define name
  | .block body, w => (resolveStmts body w.enterScope).leaveScope
  | .ifElse condition thenBranch none, w => thenBranch.resolve (condition.resolve w)
  | .ifElse condition thenBranch (some elseBranch), w =>
    elseBranch.resolve (thenBranch.resolve (condition.resolve w))
  | .loop condition body, w =>
    let w := condition.resolve w
    let inner := body.resolve { w with loops := w.loops + 1 }
    { inner with loops := inner.loops - 1 }
  | .function definition, w =>
    definition.resolve .function ((w.declare definition.name).define definition.name)
  | .ret keyword value, w =>
    let w := w.reportIf (w.body == .topLevel) keyword .returnOutsideFunction
    let w := w.reportIf (value.isSome && w.body == .initializer) keyword .returnValueFromInitializer
    resolveOption value w
  | .brk keyword, w => w.reportIf (w.loops == 0) keyword .breakOutsideLoop
  | .classDef name superclass methods, w =>
    leaveClass superclass w.classSort (resolveMethods methods (enterClass name superclass w))

/-- Resolve statements in order. -/
def resolveStmts : List Stmt → Walk → Walk
  | [], w => w
  | s :: ss, w => resolveStmts ss (s.resolve w)

/-- Resolve a function of some sort. Loops around the function are not around its body. -/
def FunctionDef.resolve : FunctionDef → BodySort → Walk → Walk
  | { params, body, .. }, sort, w =>
    let entered := { w with body := sort, loops := 0 }.enterScope
    let inner := (resolveStmts body (resolveParams params entered)).leaveScope
    { inner with body := w.body, loops := w.loops }

def resolveMethods : List FunctionDef → Walk → Walk
  | [], w => w
  | f :: fs, w =>
    resolveMethods fs (f.resolve (if f.isInitializer then .initializer else .method) w)

end

/-! ## Programs -/

/-- What resolving a program leads to. -/
structure Resolution where
  /-- Whether the program may run. -/
  accepted : Bool
  errors : List Error
  distances : Distances

/-- Resolve a program, where some distances are known from earlier programs. -/
def resolveProgram (program : List Stmt) (distances : Distances) : Resolution :=
  let w := resolveStmts program (.start distances)
  ⟨!w.failed, w.problems.toList.map fun (token, problem) => .resolve token problem, w.distances⟩

end Lox
