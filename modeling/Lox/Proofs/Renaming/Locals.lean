import Lox.Error
import Lox.Resolve

set_option autoImplicit false

/-! # Renaming a local variable

A variable or a parameter that is not global belongs to the scope of a block or of a function. To
rename it is to give the new name to its declaration and to the references that are bound to its
scope, wherever they stand in it: those whose distance leads from where they stand to that scope.
Nothing else changes, other variables of the same name and all fields and methods included.

A scope of a program is kept with the rest of the program around it (`Hole`), so that the renamed
scope can be put in its place. -/

namespace Lox

/-! ## Scopes and what is around them -/

/-- What a scope of a program consists of. A block has no parameters. -/
structure ScopeBody where
  params : List Token
  body : List Stmt

/-- A scope within a part of a program, and the part with another scope in its place. -/
structure Hole (α : Type) where
  inside : ScopeBody
  fill : ScopeBody → α

/-- A scope within a larger part. -/
def Hole.within {α β : Type} (around : α → β) (hole : Hole α) : Hole β :=
  ⟨hole.inside, fun scope => around (hole.fill scope)⟩

mutual

/-- The scopes in a statement: those of its blocks and of its functions and methods. -/
def Stmt.holes : Stmt → List (Hole Stmt)
  | .block body => ⟨⟨[], body⟩, fun scope => .block scope.body⟩ ::
      (stmtHoles body).map (.within .block)
  | .ifElse condition thenBranch none =>
    thenBranch.holes.map (.within fun s => .ifElse condition s none)
  | .ifElse condition thenBranch (some elseBranch) =>
    thenBranch.holes.map (.within fun s => .ifElse condition s (some elseBranch)) ++
      elseBranch.holes.map (.within fun s => .ifElse condition thenBranch (some s))
  | .loop condition body => body.holes.map (.within (.loop condition))
  | .function definition => definition.holes.map (.within .function)
  | .classDef name superclass methods =>
    (methodHoles methods).map (.within (.classDef name superclass))
  | .expression _ | .print _ | .var _ _ | .ret _ _ | .brk _ => []

def stmtHoles : List Stmt → List (Hole (List Stmt))
  | [] => []
  | s :: ss => s.holes.map (.within (· :: ss)) ++ (stmtHoles ss).map (.within (s :: ·))

/-- The scope of a function, and those in its body. -/
def FunctionDef.holes : FunctionDef → List (Hole FunctionDef)
  | ⟨name, params, body⟩ => ⟨⟨params, body⟩, fun scope => ⟨name, scope.params, scope.body⟩⟩ ::
      (stmtHoles body).map (.within (⟨name, params, ·⟩))

def methodHoles : List FunctionDef → List (Hole (List FunctionDef))
  | [] => []
  | f :: fs => f.holes.map (.within (· :: fs)) ++ (methodHoles fs).map (.within (f :: ·))

end

/-- The variables that a statement declares in the scope in which it stands. -/
def Stmt.variables : Stmt → List Token
  | .var name _ => [name]
  | .ifElse _ thenBranch none => thenBranch.variables
  | .ifElse _ thenBranch (some elseBranch) => thenBranch.variables ++ elseBranch.variables
  | .loop _ body => body.variables
  | .expression _ | .print _ | .block _ | .function _ | .ret _ _ | .brk _ | .classDef .. => []

/-- The parameters and the variables of a scope. -/
def ScopeBody.locals (scope : ScopeBody) : List Token :=
  scope.params ++ scope.body.flatMap Stmt.variables

/-! ### Each declaration has its scope

The scopes are those of the program: put back in its place, a scope gives the program again
(`fill_of_mem_stmtHoles`). And they are all of them: what is declared in a program is global or
declared in one of its scopes (`mem_stmtDeclarations`). -/

theorem fill_of_mem_within {α β : Type} {around : α → β} {holes : List (Hole α)} {part : α}
    (hholes : ∀ hole ∈ holes, hole.fill hole.inside = part) {hole : Hole β}
    (h : hole ∈ holes.map (.within around)) : hole.fill hole.inside = around part := by
  obtain ⟨inner, hinner, rfl⟩ := List.mem_map.1 h
  exact congrArg around (hholes inner hinner)

mutual

theorem Stmt.fill_of_mem_holes (s : Stmt) (hole : Hole Stmt) (h : hole ∈ s.holes) :
    hole.fill hole.inside = s := by
  cases s with
  | expression _ | print _ | var _ _ | ret _ _ | brk _ => cases h
  | block body =>
    rcases List.mem_cons.1 h with rfl | h
    · rfl
    · exact fill_of_mem_within (fill_of_mem_stmtHoles body) h
  | ifElse _ thenBranch elseBranch? =>
    cases elseBranch? with
    | none => exact fill_of_mem_within thenBranch.fill_of_mem_holes h
    | some elseBranch =>
      rcases List.mem_append.1 h with h | h
      · exact fill_of_mem_within thenBranch.fill_of_mem_holes h
      · exact fill_of_mem_within elseBranch.fill_of_mem_holes h
  | loop _ body => exact fill_of_mem_within body.fill_of_mem_holes h
  | function definition => exact fill_of_mem_within definition.fill_of_mem_holes h
  | classDef _ _ methods => exact fill_of_mem_within (fill_of_mem_methodHoles methods) h
termination_by structural s

theorem fill_of_mem_stmtHoles (ss : List Stmt) (hole : Hole (List Stmt)) (h : hole ∈ stmtHoles ss) :
    hole.fill hole.inside = ss := by
  cases ss with
  | nil => cases h
  | cons s ss =>
    rcases List.mem_append.1 h with h | h
    · exact fill_of_mem_within s.fill_of_mem_holes h
    · exact fill_of_mem_within (fill_of_mem_stmtHoles ss) h
termination_by structural ss

theorem FunctionDef.fill_of_mem_holes (f : FunctionDef) (hole : Hole FunctionDef)
    (h : hole ∈ f.holes) : hole.fill hole.inside = f := by
  cases f with
  | mk _ _ body =>
    rcases List.mem_cons.1 h with rfl | h
    · rfl
    · exact fill_of_mem_within (fill_of_mem_stmtHoles body) h
termination_by structural f

theorem fill_of_mem_methodHoles (fs : List FunctionDef) (hole : Hole (List FunctionDef))
    (h : hole ∈ methodHoles fs) : hole.fill hole.inside = fs := by
  cases fs with
  | nil => cases h
  | cons f fs =>
    rcases List.mem_append.1 h with h | h
    · exact fill_of_mem_within f.fill_of_mem_holes h
    · exact fill_of_mem_within (fill_of_mem_methodHoles fs) h
termination_by structural fs

end

mutual

/-- All variables and parameters that are declared in a statement. -/
def Stmt.declarations : Stmt → List Token
  | .var name _ => [name]
  | .block body => stmtDeclarations body
  | .ifElse _ thenBranch none => thenBranch.declarations
  | .ifElse _ thenBranch (some elseBranch) => thenBranch.declarations ++ elseBranch.declarations
  | .loop _ body => body.declarations
  | .function definition => definition.declarations
  | .classDef _ _ methods => methodDeclarations methods
  | .expression _ | .print _ | .ret _ _ | .brk _ => []

def stmtDeclarations : List Stmt → List Token
  | [] => []
  | s :: ss => s.declarations ++ stmtDeclarations ss

def FunctionDef.declarations : FunctionDef → List Token
  | ⟨_, params, body⟩ => params ++ stmtDeclarations body

def methodDeclarations : List FunctionDef → List Token
  | [] => []
  | f :: fs => f.declarations ++ methodDeclarations fs

end

/-- The parameters and the variables of some scopes. -/
def holeLocals {α : Type} (holes : List (Hole α)) : List Token :=
  holes.flatMap (·.inside.locals)

section

variable {α β : Type}

@[simp] theorem holeLocals_nil : holeLocals ([] : List (Hole α)) = [] := rfl

@[simp] theorem holeLocals_cons (hole : Hole α) (holes : List (Hole α)) :
    holeLocals (hole :: holes) = hole.inside.locals ++ holeLocals holes :=
  List.flatMap_cons

@[simp] theorem holeLocals_append (holes holes' : List (Hole α)) :
    holeLocals (holes ++ holes') = holeLocals holes ++ holeLocals holes' :=
  List.flatMap_append

@[simp] theorem holeLocals_within (around : α → β) (holes : List (Hole α)) :
    holeLocals (holes.map (.within around)) = holeLocals holes := by
  rw [holeLocals, List.flatMap_map]
  rfl

end

mutual

theorem Stmt.mem_declarations (s : Stmt) (t : Token) :
    t ∈ s.declarations ↔ t ∈ s.variables ∨ t ∈ holeLocals s.holes := by
  cases s with
  | expression _ | print _ | ret _ _ | brk _ | var _ _ =>
    simp [Stmt.declarations, Stmt.variables, Stmt.holes]
  | block body =>
    simp [Stmt.declarations, Stmt.variables, Stmt.holes, ScopeBody.locals,
      mem_stmtDeclarations body t]
  | ifElse _ thenBranch elseBranch? =>
    cases elseBranch? with
    | none =>
      simp [Stmt.declarations, Stmt.variables, Stmt.holes, thenBranch.mem_declarations t]
    | some elseBranch =>
      simp [Stmt.declarations, Stmt.variables, Stmt.holes, thenBranch.mem_declarations t,
        elseBranch.mem_declarations t, or_or_or_comm]
  | loop _ body =>
    simp [Stmt.declarations, Stmt.variables, Stmt.holes, body.mem_declarations t]
  | function definition =>
    simp [Stmt.declarations, Stmt.variables, Stmt.holes, definition.mem_declarations t]
  | classDef _ _ methods =>
    simp [Stmt.declarations, Stmt.variables, Stmt.holes, mem_methodDeclarations methods t]
termination_by structural s

theorem mem_stmtDeclarations (ss : List Stmt) (t : Token) :
    t ∈ stmtDeclarations ss ↔ t ∈ ss.flatMap Stmt.variables ∨ t ∈ holeLocals (stmtHoles ss) := by
  cases ss with
  | nil => simp [stmtDeclarations, stmtHoles]
  | cons s ss =>
    rw [stmtDeclarations, stmtHoles, List.mem_append, s.mem_declarations, mem_stmtDeclarations ss,
      List.flatMap_cons, holeLocals_append, holeLocals_within, holeLocals_within, List.mem_append,
      List.mem_append, or_or_or_comm]
termination_by structural ss

theorem FunctionDef.mem_declarations (f : FunctionDef) (t : Token) :
    t ∈ f.declarations ↔ t ∈ holeLocals f.holes := by
  cases f with
  | mk _ params body =>
    simp only [FunctionDef.declarations, FunctionDef.holes, ScopeBody.locals, holeLocals_cons,
      holeLocals_within, List.mem_append, mem_stmtDeclarations body t, or_assoc]
termination_by structural f

theorem mem_methodDeclarations (fs : List FunctionDef) (t : Token) :
    t ∈ methodDeclarations fs ↔ t ∈ holeLocals (methodHoles fs) := by
  cases fs with
  | nil => simp [methodDeclarations, methodHoles]
  | cons f fs =>
    simp [methodDeclarations, methodHoles, f.mem_declarations t, mem_methodDeclarations fs t]
termination_by structural fs

end

/-! ## Renaming -/

/-- A new name for a variable. -/
structure Renaming where
  old : String
  new : String
  /-- How far out each reference is bound. -/
  distances : Distances

namespace Renaming

variable (ρ : Renaming)

/-- A token with the new name in place of the old one, if it stands for the variable. -/
def respell (ours : Bool) (t : Token) : Token :=
  if ours && t.lexeme == ρ.old then { t with lexeme := ρ.new } else t

/-- A declaration that stands some scopes inside the scope of the variable. -/
def declared (depth : Nat) (name : Token) : Token := ρ.respell (depth == 0) name

/-- A reference that stands some scopes inside the scope of the variable. -/
def referred (depth : Nat) (id : RefId) (name : Token) : Token :=
  ρ.respell (ρ.distances.get? id == some depth) name

/-- A problem with the new name in place of the old one, if that stands for the variable. -/
def problem (ours : Bool) : RuntimeProblem → RuntimeProblem
  | .undefinedVariable name => .undefinedVariable (if ours && name == ρ.old then ρ.new else name)
  | other => other

/-- An error with the new name where it cites the old one, if that stands for the variable. -/
def cited : Bool → Error → Error
  | ours, .runtime t problem => .runtime (ρ.respell ours t) (ρ.problem ours problem)
  | _, other => other

end Renaming

section

variable (ρ : Renaming)

mutual

/-- Rename the variable in an expression that stands some scopes inside its scope. -/
def Expr.rename (depth : Nat) : Expr → Expr
  | .literal value => .literal value
  | .grouping inner => .grouping (inner.rename depth)
  | .unary operator right => .unary operator (right.rename depth)
  | .binary left operator right => .binary (left.rename depth) operator (right.rename depth)
  | .logical left operator right => .logical (left.rename depth) operator (right.rename depth)
  | .var id name => .var id (ρ.referred depth id name)
  | .assign id name value => .assign id (ρ.referred depth id name) (value.rename depth)
  | .call callee paren arguments =>
    .call (callee.rename depth) paren (renameExprs depth arguments)
  | .get object name => .get (object.rename depth) name
  | .set object name value => .set (object.rename depth) name (value.rename depth)
  | .thisRef id keyword => .thisRef id keyword
  | .superRef id keyword method => .superRef id keyword method

def renameExprs (depth : Nat) : List Expr → List Expr
  | [] => []
  | e :: es => e.rename depth :: renameExprs depth es

end

/-- Rename the variable in a superclass clause. -/
def Superclass.rename (depth : Nat) (s : Superclass) : Superclass :=
  { s with name := ρ.referred depth s.id s.name }

mutual

/-- Rename the variable in a statement that stands some scopes inside its scope. -/
def Stmt.rename (depth : Nat) : Stmt → Stmt
  | .expression value => .expression (value.rename ρ depth)
  | .print value => .print (value.rename ρ depth)
  | .var name initializer =>
    .var (ρ.declared depth name) (initializer.map (Expr.rename ρ depth))
  | .block body => .block (renameStmts (depth + 1) body)
  | .ifElse condition thenBranch none =>
    .ifElse (condition.rename ρ depth) (thenBranch.rename depth) none
  | .ifElse condition thenBranch (some elseBranch) =>
    .ifElse (condition.rename ρ depth) (thenBranch.rename depth) (some (elseBranch.rename depth))
  | .loop condition body => .loop (condition.rename ρ depth) (body.rename depth)
  | .function definition => .function (definition.rename (depth + 1))
  | .ret keyword value => .ret keyword (value.map (Expr.rename ρ depth))
  | .brk keyword => .brk keyword
  -- around the scope of a method is that of its `this`, and around that the one of the `super`
  | .classDef name none methods => .classDef name none (renameMethods (depth + 2) methods)
  | .classDef name (some s) methods =>
    .classDef name (some (s.rename ρ depth)) (renameMethods (depth + 3) methods)

def renameStmts (depth : Nat) : List Stmt → List Stmt
  | [] => []
  | s :: ss => s.rename depth :: renameStmts depth ss

/-- Rename the variable in a function whose own scope is some scopes inside its scope. -/
def FunctionDef.rename (depth : Nat) : FunctionDef → FunctionDef
  | ⟨name, params, body⟩ => ⟨name, params.map (ρ.declared depth), renameStmts depth body⟩

def renameMethods (depth : Nat) : List FunctionDef → List FunctionDef
  | [] => []
  | f :: fs => f.rename depth :: renameMethods depth fs

end

/-- Rename the variable in its scope. -/
def ScopeBody.rename (scope : ScopeBody) : ScopeBody :=
  ⟨scope.params.map (ρ.declared 0), renameStmts ρ 0 scope.body⟩

end

end Lox
