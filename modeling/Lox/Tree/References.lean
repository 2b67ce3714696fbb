import Lox.Tree

set_option autoImplicit false

/-! # The references of a tree

All nodes of a program that refer to a binding by name, in the order of the tree: a node before its
parts, the parts from left to right. -/

namespace Lox

/-- The sorts of references. -/
inductive ReferenceSort where
  | var | assign | this | super | superclass
  deriving DecidableEq

/-- A reference: what it is, its identity, and the token that names the binding. -/
structure Reference where
  sort : ReferenceSort
  id : RefId
  token : Token

mutual

def Expr.references : Expr → List Reference
  | .literal _ => []
  | .grouping inner => inner.references
  | .unary _ right => right.references
  | .binary left _ right => left.references ++ right.references
  | .logical left _ right => left.references ++ right.references
  | .var id name => [⟨.var, id, name⟩]
  | .assign id name value => ⟨.assign, id, name⟩ :: value.references
  | .call callee _ arguments => callee.references ++ exprReferences arguments
  | .get object _ => object.references
  | .set object _ value => object.references ++ value.references
  | .thisRef id keyword => [⟨.this, id, keyword⟩]
  | .superRef id keyword _ => [⟨.super, id, keyword⟩]

def exprReferences : List Expr → List Reference
  | [] => []
  | e :: es => e.references ++ exprReferences es

end

/-- The references of an expression that may be left out. -/
def optionReferences : Option Expr → List Reference
  | none => []
  | some e => e.references

mutual

def Stmt.references : Stmt → List Reference
  | .expression value => value.references
  | .print value => value.references
  | .var _ initializer => optionReferences initializer
  | .block body => stmtReferences body
  | .ifElse condition thenBranch none => condition.references ++ thenBranch.references
  | .ifElse condition thenBranch (some elseBranch) =>
    condition.references ++ thenBranch.references ++ elseBranch.references
  | .loop condition body => condition.references ++ body.references
  | .function definition => definition.references
  | .ret _ value => optionReferences value
  | .brk _ => []
  | .classDef _ superclass methods =>
    (superclass.toList.map fun s => ⟨.superclass, s.id, s.name⟩) ++ methodReferences methods

/-- The references of a program. -/
def stmtReferences : List Stmt → List Reference
  | [] => []
  | s :: ss => s.references ++ stmtReferences ss

def FunctionDef.references : FunctionDef → List Reference
  | { body, .. } => stmtReferences body

def methodReferences : List FunctionDef → List Reference
  | [] => []
  | f :: fs => f.references ++ methodReferences fs

end

end Lox
