import Lox.Resolve
import Lox.Tree.References

set_option autoImplicit false

/-! # Where the references of a program stand

Read from its text alone, a program says for each of its references which scopes are open there and
which names have been declared in them before that point. This is laid down here without the walk
that resolves names, so that it can be compared with the walk and with the frames of a run.

A scope is named by the construct that opens it. The `this` of a class is a scope around each of its
methods, not one around all of them: that is how it exists when the program runs. -/

namespace Lox

/-! ## Scopes -/

/-- A scope, by the construct that opens it. -/
inductive Scope where
  | block (body : List Stmt)
  /-- The parameters and the body of a function. -/
  | call (definition : FunctionDef)
  /-- The `this` of a method. -/
  | receiver (method : FunctionDef)
  /-- The `super` of a class. -/
  | parent (superclass : Superclass)

/-- A scope that is open at a point, and the names declared in it before that point. -/
structure OpenScope where
  scope : Scope
  names : DeclaredNames

/-- The scopes open at a point, the innermost first. The global scope is not among them. -/
abbrev Scopes := List OpenScope

namespace Scopes

/-- Declare a name in the innermost scope. Global names are not kept. -/
def put (name : String) (ready : Bool) : Scopes → Scopes
  | [] => []
  | s :: outer => { s with names := s.names.bind name ready } :: outer

/-- The number of scopes between the innermost and the one that has a name. -/
def distance? (scopes : Scopes) (name : String) : Option Nat :=
  scopes.findIdx? fun s => (s.names.find? name).isSome

/-- What the innermost class is whose methods are around a point. -/
def classSort : Scopes → ClassSort
  | [] => .noClass
  | ⟨.receiver _, _⟩ :: ⟨.parent _, _⟩ :: _ => .derived
  | ⟨.receiver _, _⟩ :: _ => .plain
  | _ :: outer => classSort outer

/-- The innermost method around a point. -/
def method? (scopes : Scopes) : Option FunctionDef :=
  scopes.findSome? fun s => match s.scope with
    | .receiver f => some f
    | _ => none

end Scopes

/-- The scope of a function before its body. -/
def FunctionDef.scope (f : FunctionDef) : OpenScope :=
  ⟨.call f, f.params.foldl (fun names p => names.bind p.lexeme true) []⟩

/-- The scope of an object around a method. -/
def FunctionDef.receiver (f : FunctionDef) : OpenScope := ⟨.receiver f, [("this", true)]⟩

/-- The scope of the superclass around the methods of a class. -/
def Superclass.scope (s : Superclass) : OpenScope := ⟨.parent s, [("super", true)]⟩

namespace Scopes

@[simp] theorem tail_put (name : String) (ready : Bool) (scopes : Scopes) :
    (scopes.put name ready).tail = scopes.tail := by cases scopes <;> rfl

@[simp] theorem classSort_put (name : String) (ready : Bool) (scopes : Scopes) :
    (scopes.put name ready).classSort = scopes.classSort := by
  match scopes with
  | [] => rfl
  | ⟨.block _, _⟩ :: _ | ⟨.call _, _⟩ :: _ | ⟨.parent _, _⟩ :: _ => rfl
  | [⟨.receiver _, _⟩] => rfl
  | ⟨.receiver _, _⟩ :: ⟨.parent _, _⟩ :: _ => rfl
  | ⟨.receiver _, _⟩ :: ⟨.block _, _⟩ :: _ => rfl
  | ⟨.receiver _, _⟩ :: ⟨.call _, _⟩ :: _ => rfl
  | ⟨.receiver _, _⟩ :: ⟨.receiver _, _⟩ :: _ => rfl

/-- The scope of a superclass is none in which a program stands. -/
def Inside (scopes : Scopes) : Prop := ∀ s ∈ scopes.head?, ∀ p, s.scope ≠ .parent p

theorem Inside.put {scopes : Scopes} (h : scopes.Inside) (name : String) (ready : Bool) :
    (scopes.put name ready).Inside := by
  cases scopes with
  | nil => exact h
  | cons s outer => exact fun s' hs' => by cases hs'; exact h s rfl

theorem classSort_receiver {scopes : Scopes} (h : scopes.Inside) (f : FunctionDef) :
    Scopes.classSort (f.receiver :: scopes) = .plain := by
  match scopes, h with
  | [], _ | ⟨.block _, _⟩ :: _, _ | ⟨.call _, _⟩ :: _, _ | ⟨.receiver _, _⟩ :: _, _ => rfl
  | ⟨.parent p, _⟩ :: _, h => exact absurd rfl (h _ rfl p)

end Scopes

/-! ## Sites -/

/-- A reference and the scopes that are open where it stands. -/
structure Site where
  reference : Reference
  scopes : Scopes

/-- How far out the name of a reference is declared, if it is not global. -/
def Site.distance? (site : Site) : Option Nat :=
  site.scopes.distance? site.reference.token.lexeme

/-- The sites of references that stand at one point. -/
def sitesAt (scopes : Scopes) (references : List Reference) : List Site :=
  references.map (⟨·, scopes⟩)

/-- The scopes behind a statement. -/
def Stmt.after (scopes : Scopes) : Stmt → Scopes
  | .var name _ => scopes.put name.lexeme true
  | .function definition => scopes.put definition.name.lexeme true
  | .classDef name _ _ => scopes.put name.lexeme true
  | _ => scopes

mutual

/-- The sites of a statement at a point. A variable is declared in front of its initializer, a
    class in front of its superclass clause. -/
def Stmt.sites (scopes : Scopes) : Stmt → List Site
  | .expression value => sitesAt scopes value.references
  | .print value => sitesAt scopes value.references
  | .var name initializer =>
    sitesAt (scopes.put name.lexeme false) (optionReferences initializer)
  | .block body => stmtSites (⟨.block body, []⟩ :: scopes) body
  | .ifElse condition thenBranch none =>
    sitesAt scopes condition.references ++ thenBranch.sites scopes
  | .ifElse condition thenBranch (some elseBranch) =>
    sitesAt scopes condition.references ++ thenBranch.sites scopes ++ elseBranch.sites scopes
  | .loop condition body => sitesAt scopes condition.references ++ body.sites scopes
  | .function definition => definition.sites (scopes.put definition.name.lexeme true)
  | .ret _ value => sitesAt scopes (optionReferences value)
  | .brk _ => []
  | .classDef name none methods => methodSites (scopes.put name.lexeme true) methods
  | .classDef name (some s) methods =>
    ⟨⟨.superclass, s.id, s.name⟩, scopes.put name.lexeme false⟩ ::
      methodSites (s.scope :: scopes.put name.lexeme true) methods

/-- The sites of statements that follow each other from a point on. -/
def stmtSites (scopes : Scopes) : List Stmt → List Site
  | [] => []
  | s :: ss => s.sites scopes ++ stmtSites (s.after scopes) ss

def FunctionDef.sites (scopes : Scopes) : FunctionDef → List Site
  | ⟨name, params, body⟩ => stmtSites (FunctionDef.scope ⟨name, params, body⟩ :: scopes) body

/-- The sites of the methods of a class, each inside a scope of its own for `this`. -/
def methodSites (scopes : Scopes) : List FunctionDef → List Site
  | [] => []
  | f :: fs => f.sites (f.receiver :: scopes) ++ methodSites scopes fs

end

end Lox
