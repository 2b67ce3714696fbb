import Lox.Document
import Lox.Tree

set_option autoImplicit false

/-! # Tokens and trees as documents

Each node is a document with one field, named for the sort of the node, that holds the parts of the
node in a fixed order. What is left out of a node is null. -/

namespace Lox

open Document

/-! ## Tokens -/

/-- A kind is its name; a literal also holds its value. -/
def Kind.document : Kind → Document
  | .string value => tagged "STRING" (.text value)
  | .number value => tagged "NUMBER" (.number value)
  | kind => .text kind.name

def Token.document (t : Token) : Document :=
  .fields [("token_type", t.kind.document), ("lexeme", .text t.lexeme), ("line", .count t.line)]

/-! ## Expressions -/

def Literal.document : Literal → Document
  | number x => tagged "Number" (.number x)
  | string s => tagged "Str" (.text s)
  | bool b => .text (if b then "True" else "False")
  | nil => .text "Nil"

mutual

def Expr.document : Expr → Document
  | .literal value => tagged "Literal" value.document
  | .grouping inner => tagged "Grouping" inner.document
  | .unary operator right =>
    tagged "Unary" (.fields [("operator", operator.document), ("right", right.document)])
  | .binary left operator right =>
    tagged "Binary" (.fields
      [("left", left.document), ("operator", operator.document), ("right", right.document)])
  | .logical left operator right =>
    tagged "Logical" (.fields
      [("left", left.document), ("operator", operator.document), ("right", right.document)])
  | .var id name => tagged "Variable" (.fields [("id", .count id), ("name", name.document)])
  | .assign id name value =>
    tagged "Assign" (.fields
      [("id", .count id), ("name", name.document), ("value", value.document)])
  | .call callee paren arguments =>
    tagged "Call" (.fields
      [("callee", callee.document), ("paren", paren.document),
       ("arguments", .list (exprDocuments arguments))])
  | .get object name =>
    tagged "Get" (.fields [("object", object.document), ("name", name.document)])
  | .set object name value =>
    tagged "Set" (.fields
      [("object", object.document), ("name", name.document), ("value", value.document)])
  | .thisRef id keyword =>
    tagged "This" (.fields [("id", .count id), ("keyword", keyword.document)])
  | .superRef id keyword method =>
    tagged "Super" (.fields
      [("id", .count id), ("keyword", keyword.document), ("method", method.document)])

def exprDocuments : List Expr → List Document
  | [] => []
  | e :: es => e.document :: exprDocuments es

end

/-! ## Statements -/

/-- An expression that may be left out. -/
def optionDocument : Option Expr → Document
  | none => .null
  | some e => e.document

def Superclass.document (s : Superclass) : Document :=
  .fields [("id", .count s.id), ("name", s.name.document)]

mutual

def Stmt.document : Stmt → Document
  | .expression value => tagged "Expression" value.document
  | .print value => tagged "Print" value.document
  | .var name initializer =>
    tagged "Var" (.fields
      [("name", name.document), ("initializer", optionDocument initializer)])
  | .block body => tagged "Block" (.list (stmtDocuments body))
  | .ifElse condition thenBranch none =>
    tagged "If" (.fields
      [("condition", condition.document), ("then_branch", thenBranch.document),
       ("else_branch", .null)])
  | .ifElse condition thenBranch (some elseBranch) =>
    tagged "If" (.fields
      [("condition", condition.document), ("then_branch", thenBranch.document),
       ("else_branch", elseBranch.document)])
  | .loop condition body =>
    tagged "While" (.fields [("condition", condition.document), ("body", body.document)])
  | .function definition => tagged "Function" definition.document
  | .ret keyword value =>
    tagged "Return" (.fields [("keyword", keyword.document), ("value", optionDocument value)])
  | .brk keyword => tagged "Break" (.fields [("keyword", keyword.document)])
  | .classDef name superclass methods =>
    tagged "Class" (.fields
      [("name", name.document), ("superclass", ofOption (superclass.map Superclass.document)),
       ("methods", .list (methodDocuments methods))])

/-- The documents of the statements of a program. -/
def stmtDocuments : List Stmt → List Document
  | [] => []
  | s :: ss => s.document :: stmtDocuments ss

def FunctionDef.document : FunctionDef → Document
  | { name, params, body } =>
    .fields [("name", name.document), ("params", .list (params.map Token.document)),
      ("body", .list (stmtDocuments body))]

def methodDocuments : List FunctionDef → List Document
  | [] => []
  | f :: fs => f.document :: methodDocuments fs

end

end Lox
