import Lox.Tree

set_option autoImplicit false

/-! # Trees as text

A tree is written in parenthesised form, operator first: `(+ 1.0 (group (* 2.0 3.0)))`. A program
has one line for each of its statements. -/

namespace Lox

def Literal.printed : Literal → String
  | number x => Number.inTree.write x
  | string s => s
  | bool b => if b then "true" else "false"
  | nil => "nil"

/-- Texts in parentheses, with one space between them. -/
def parenthesized (texts : List String) : String := "(" ++ " ".intercalate texts ++ ")"

mutual

def Expr.printed : Expr → String
  | .literal value => value.printed
  | .grouping inner => parenthesized ["group", inner.printed]
  | .unary operator right => parenthesized [operator.lexeme, right.printed]
  | .binary left operator right => parenthesized [operator.lexeme, left.printed, right.printed]
  | .logical left operator right => parenthesized [operator.lexeme, left.printed, right.printed]
  | .var _ name => name.lexeme
  | .assign _ name value => parenthesized ["=", name.lexeme, value.printed]
  | .call callee _ arguments => parenthesized ("call" :: callee.printed :: printedExprs arguments)
  | .get object name => parenthesized [".", object.printed, name.lexeme]
  | .set object name value =>
    parenthesized ["=", parenthesized [".", object.printed, name.lexeme], value.printed]
  | .thisRef _ _ => "this"
  | .superRef _ _ method => parenthesized ["super", method.lexeme]

def printedExprs : List Expr → List String
  | [] => []
  | e :: es => e.printed :: printedExprs es

end

mutual

def Stmt.printed : Stmt → String
  | .expression value => parenthesized [";", value.printed]
  | .print value => parenthesized ["print", value.printed]
  | .var name none => parenthesized ["var", name.lexeme]
  | .var name (some value) => parenthesized ["var", name.lexeme, "=", value.printed]
  | .block body => parenthesized ("block" :: printedStmts body)
  | .ifElse condition thenBranch none =>
    parenthesized ["if", condition.printed, thenBranch.printed]
  | .ifElse condition thenBranch (some elseBranch) =>
    parenthesized ["if", condition.printed, thenBranch.printed, elseBranch.printed]
  | .loop condition body => parenthesized ["while", condition.printed, body.printed]
  | .function definition => parenthesized ("fun" :: definition.printedParts)
  | .ret _ none => parenthesized ["return"]
  | .ret _ (some value) => parenthesized ["return", value.printed]
  | .brk _ => parenthesized ["break"]
  | .classDef name superclass methods =>
    let parent := match superclass with
      | some s => ["<", s.name.lexeme]
      | none => []
    parenthesized ("class" :: name.lexeme :: parent ++ printedMethods methods)

def printedStmts : List Stmt → List String
  | [] => []
  | s :: ss => s.printed :: printedStmts ss

/-- The name, the parameters in parentheses, and the statements of the body. -/
def FunctionDef.printedParts : FunctionDef → List String
  | { name, params, body } =>
    name.lexeme :: parenthesized (params.map (·.lexeme)) :: printedStmts body

def printedMethods : List FunctionDef → List String
  | [] => []
  | f :: fs => parenthesized f.printedParts :: printedMethods fs

end

/-- A program, one line for each statement. -/
def printedProgram (program : List Stmt) : String := "\n".intercalate (printedStmts program)

end Lox
