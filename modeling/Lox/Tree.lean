import Lox.Token

set_option autoImplicit false

/-! # Syntax trees

A program is a list of statements. A node that refers to a binding by name (a variable, an
assignment, `this`, `super` and the superclass of a class) has an identity of its own (`RefId`), so
that what is found out about one occurrence can be kept beside the tree. -/

namespace Lox

/-- The identity of a reference. -/
abbrev RefId := Nat

/-- A constant in the source. -/
inductive Literal where
  | number (value : Float)
  | string (value : String)
  | bool (value : Bool)
  | nil

/-- An expression. The tokens kept in a node are the places at which its errors are reported. -/
inductive Expr where
  | literal (value : Literal)
  /-- An expression in parentheses. -/
  | grouping (inner : Expr)
  | unary (operator : Token) (right : Expr)
  | binary (left : Expr) (operator : Token) (right : Expr)
  /-- An `and` or `or`, whose right operand may be left out. -/
  | logical (left : Expr) (operator : Token) (right : Expr)
  | var (id : RefId) (name : Token)
  | assign (id : RefId) (name : Token) (value : Expr)
  /-- A call with the parenthesis that closes its arguments. -/
  | call (callee : Expr) (paren : Token) (arguments : List Expr)
  | get (object : Expr) (name : Token)
  | set (object : Expr) (name : Token) (value : Expr)
  | thisRef (id : RefId) (keyword : Token)
  | superRef (id : RefId) (keyword method : Token)

/-- The class after `<` in a class declaration. -/
structure Superclass where
  id : RefId
  name : Token

mutual

/-- A statement or declaration. -/
inductive Stmt where
  | expression (value : Expr)
  | print (value : Expr)
  | var (name : Token) (initializer : Option Expr)
  | block (body : List Stmt)
  | ifElse (condition : Expr) (thenBranch : Stmt) (elseBranch : Option Stmt)
  | loop (condition : Expr) (body : Stmt)
  | function (definition : FunctionDef)
  | ret (keyword : Token) (value : Option Expr)
  | brk (keyword : Token)
  | classDef (name : Token) (superclass : Option Superclass) (methods : List FunctionDef)

/-- A function or a method. -/
structure FunctionDef where
  name : Token
  params : List Token
  body : List Stmt

end

/-- A `for` loop is a `while` loop: the initializer stands before it in a block of its own, the
    increment after the body in another, and a condition left out is true. -/
def Stmt.forLoop (initializer : Option Stmt) (condition increment : Option Expr) (body : Stmt) :
    Stmt :=
  let body := match increment with
    | some e => .block [body, .expression e]
    | none => body
  let loop := .loop (condition.getD (.literal (.bool true))) body
  match initializer with
  | some start => .block [start, loop]
  | none => loop

/-- The name of the method that sets up new objects. -/
def initializerName : String := "init"

/-- Whether a method sets up new objects. -/
def FunctionDef.isInitializer (f : FunctionDef) : Bool := f.name.lexeme == initializerName

end Lox
