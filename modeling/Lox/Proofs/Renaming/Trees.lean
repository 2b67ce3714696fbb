import Lox.Proofs.Grammar.Trees
import Lox.Proofs.Places.Trees
import Lox.Proofs.Renaming.Locals
import Mathlib.Logic.Equiv.Basic

set_option autoImplicit false

/-! # Renamed trees

What becomes of a tree when a name is replaced in some of the scopes around it and in it is a
relation between trees (`Expr.Renamed`, `Stmt.Renamed`). It is given for each scope around the tree,
the innermost first and the global one last, whether the name is replaced in it: the marks of the
scopes. A program with a variable renamed in one of its scopes is an instance
(`renamed_of_mem_holes`), and so is every tree beside itself, where nothing is marked
(`Stmt.renamed_self`).

The name is exchanged with the new one rather than replaced by it (`Renaming.key`), which makes no
difference to a program in which the new name does not occur, and can be undone. -/

namespace Lox

variable {ρ : Renaming}

/-! ## Names -/

namespace Renaming

/-- The name of a variable of a scope that is marked or not. -/
def key (ρ : Renaming) (marked : Bool) : String ≃ String :=
  if marked then Equiv.swap ρ.old ρ.new else Equiv.refl String

/-- A name that is not the new one already. -/
def Apart (ρ : Renaming) (marked : Bool) (name : String) : Prop := marked = true → name ≠ ρ.new

/-- A name that is neither the old nor the new one. -/
def Other (ρ : Renaming) (marked : Bool) (name : String) : Prop :=
  marked = true → name ≠ ρ.old ∧ name ≠ ρ.new

@[simp] theorem key_false (name : String) : ρ.key false name = name := rfl

theorem key_true (name : String) : ρ.key true name = Equiv.swap ρ.old ρ.new name := rfl

@[simp] theorem key_key (marked : Bool) (name : String) :
    ρ.key marked (ρ.key marked name) = name := by
  cases marked with
  | false => rfl
  | true => exact Equiv.swap_apply_self _ _ _

theorem Other.key {marked : Bool} {name : String} (h : ρ.Other marked name) :
    ρ.key marked name = name := by
  cases marked with
  | false => rfl
  | true => exact Equiv.swap_apply_of_ne_of_ne (h rfl).1 (h rfl).2

theorem respell_lexeme {marked : Bool} {t : Token} (h : ρ.Apart marked t.lexeme) :
    (ρ.respell marked t).lexeme = ρ.key marked t.lexeme := by
  cases marked with
  | false => rfl
  | true =>
    by_cases hold : t.lexeme = ρ.old
    · simp [respell, hold, key_true]
    · simp [respell, hold, Other.key fun _ => ⟨hold, h rfl⟩]

@[simp] theorem respell_kind (marked : Bool) (t : Token) :
    (ρ.respell marked t).kind = t.kind := by
  unfold respell
  split <;> rfl

theorem Other.apart {marked : Bool} {name : String} (h : ρ.Other marked name) :
    ρ.Apart marked name :=
  fun hmarked => (h hmarked).2

theorem Other.respell {marked : Bool} {t : Token} (h : ρ.Other marked t.lexeme) :
    ρ.respell marked t = t := by
  cases marked with
  | false => rfl
  | true => simp [Renaming.respell, (h rfl).1]

/-- A name that no program chooses is not renamed. -/
theorem other_of_chosen (hold : Chosen ρ.old) (hnew : Chosen ρ.new) (marked : Bool) :
    ρ.Other marked "this" ∧ ρ.Other marked "super" :=
  ⟨fun _ => ⟨hold.1.symm, hnew.1.symm⟩, fun _ => ⟨hold.2.symm, hnew.2.symm⟩⟩

/-- Names of different scopes, none of them the new one, are not taken for each other. -/
theorem eq_of_key_eq {marked marked' : Bool} {name name' : String} (h : name ≠ ρ.new)
    (h' : name' ≠ ρ.new) (heq : ρ.key marked name = ρ.key marked' name') : name = name' := by
  cases marked with
  | false =>
    cases marked' with
    | false => exact heq
    | true =>
      by_cases hold : name' = ρ.old
      · subst hold
        exact absurd (heq.trans (Equiv.swap_apply_left _ _)) h
      · exact heq.trans (Other.key fun _ => ⟨hold, h'⟩)
  | true =>
    cases marked' with
    | true => exact (ρ.key true).injective heq
    | false =>
      by_cases hold : name = ρ.old
      · subst hold
        exact absurd (heq.symm.trans (Equiv.swap_apply_left _ _)) h'
      · exact (Other.key fun _ => ⟨hold, h⟩).symm.trans heq

/-- Whether a reference is bound to a scope that is marked. -/
def refers (ρ : Renaming) (marks : List Bool) (id : RefId) : Bool :=
  (ρ.distances.get? id).any fun distance => marks.getD distance false

end Renaming

/-! ## Trees -/

section

variable (ρ : Renaming)

/-- An expression, and what becomes of it. -/
inductive Expr.Renamed (marks : List Bool) : Expr → Expr → Prop
  | literal (value : Literal) : Expr.Renamed marks (.literal value) (.literal value)
  | grouping {e e' : Expr} : Expr.Renamed marks e e' →
      Expr.Renamed marks (.grouping e) (.grouping e')
  | unary {operator : Token} {e e' : Expr} : Expr.Renamed marks e e' →
      Expr.Renamed marks (.unary operator e) (.unary operator e')
  | binary {operator : Token} {l l' r r' : Expr} : Expr.Renamed marks l l' →
      Expr.Renamed marks r r' → Expr.Renamed marks (.binary l operator r) (.binary l' operator r')
  | logical {operator : Token} {l l' r r' : Expr} : Expr.Renamed marks l l' →
      Expr.Renamed marks r r' → Expr.Renamed marks (.logical l operator r) (.logical l' operator r')
  | var {id : RefId} {name : Token} : ρ.Apart (ρ.refers marks id) name.lexeme →
      Expr.Renamed marks (.var id name) (.var id (ρ.respell (ρ.refers marks id) name))
  | assign {id : RefId} {name : Token} {e e' : Expr} : ρ.Apart (ρ.refers marks id) name.lexeme →
      Expr.Renamed marks e e' →
      Expr.Renamed marks (.assign id name e) (.assign id (ρ.respell (ρ.refers marks id) name) e')
  | call {paren : Token} {e e' : Expr} {es es' : List Expr} : Expr.Renamed marks e e' →
      List.Forall₂ (Expr.Renamed marks) es es' →
      Expr.Renamed marks (.call e paren es) (.call e' paren es')
  | get {name : Token} {e e' : Expr} : Expr.Renamed marks e e' →
      Expr.Renamed marks (.get e name) (.get e' name)
  | set {name : Token} {o o' e e' : Expr} : Expr.Renamed marks o o' → Expr.Renamed marks e e' →
      Expr.Renamed marks (.set o name e) (.set o' name e')
  | thisRef {id : RefId} {keyword : Token} : ρ.Other (ρ.refers marks id) keyword.lexeme →
      Expr.Renamed marks (.thisRef id keyword) (.thisRef id keyword)
  | superRef {id : RefId} {keyword method : Token} : ρ.Other (ρ.refers marks id) keyword.lexeme →
      Expr.Renamed marks (.superRef id keyword method) (.superRef id keyword method)

mutual

/-- A statement, and what becomes of it. What it declares it declares in the first of the scopes. -/
inductive Stmt.Renamed : List Bool → Stmt → Stmt → Prop
  | expression {marks : List Bool} {e e' : Expr} : e.Renamed ρ marks e' →
      Stmt.Renamed marks (.expression e) (.expression e')
  | print {marks : List Bool} {e e' : Expr} : e.Renamed ρ marks e' →
      Stmt.Renamed marks (.print e) (.print e')
  | var {marks : List Bool} {name : Token} {e e' : Option Expr} :
      ρ.Apart (marks.headD false) name.lexeme → Option.Rel (Expr.Renamed ρ marks) e e' →
      Stmt.Renamed marks (.var name e) (.var (ρ.respell (marks.headD false) name) e')
  | block {marks : List Bool} (marked : Bool) {ss ss' : List Stmt} :
      StmtsRenamed (marked :: marks) ss ss' → Stmt.Renamed marks (.block ss) (.block ss')
  | ifOnly {marks : List Bool} {c c' : Expr} {s s' : Stmt} : c.Renamed ρ marks c' →
      Stmt.Renamed marks s s' → Stmt.Renamed marks (.ifElse c s none) (.ifElse c' s' none)
  | ifElse {marks : List Bool} {c c' : Expr} {s s' o o' : Stmt} : c.Renamed ρ marks c' →
      Stmt.Renamed marks s s' → Stmt.Renamed marks o o' →
      Stmt.Renamed marks (.ifElse c s (some o)) (.ifElse c' s' (some o'))
  | loop {marks : List Bool} {c c' : Expr} {s s' : Stmt} : c.Renamed ρ marks c' →
      Stmt.Renamed marks s s' → Stmt.Renamed marks (.loop c s) (.loop c' s')
  | function {marks : List Bool} {f f' : FunctionDef} :
      ρ.Other (marks.headD false) f.name.lexeme → FunctionDef.Renamed marks f f' →
      Stmt.Renamed marks (.function f) (.function f')
  | ret {marks : List Bool} {keyword : Token} {e e' : Option Expr} :
      Option.Rel (Expr.Renamed ρ marks) e e' → Stmt.Renamed marks (.ret keyword e) (.ret keyword e')
  | brk {marks : List Bool} (keyword : Token) : Stmt.Renamed marks (.brk keyword) (.brk keyword)
  | plainClass {marks : List Bool} {name : Token} {fs fs' : List FunctionDef} :
      ρ.Other (marks.headD false) name.lexeme → MethodsRenamed (false :: marks) fs fs' →
      Stmt.Renamed marks (.classDef name none fs) (.classDef name none fs')
  | derivedClass {marks : List Bool} {name parent : Token} {id : RefId} {fs fs' : List FunctionDef} :
      ρ.Other (marks.headD false) name.lexeme → ρ.Apart (ρ.refers marks id) parent.lexeme →
      MethodsRenamed (false :: false :: marks) fs fs' →
      Stmt.Renamed marks (.classDef name (some ⟨id, parent⟩) fs)
        (.classDef name (some ⟨id, ρ.respell (ρ.refers marks id) parent⟩) fs')

inductive StmtsRenamed : List Bool → List Stmt → List Stmt → Prop
  | nil {marks : List Bool} : StmtsRenamed marks [] []
  | cons {marks : List Bool} {s s' : Stmt} {ss ss' : List Stmt} : Stmt.Renamed marks s s' →
      StmtsRenamed marks ss ss' → StmtsRenamed marks (s :: ss) (s' :: ss')

/-- A function, and what becomes of it. The marks are those of the scopes around its own. -/
inductive FunctionDef.Renamed : List Bool → FunctionDef → FunctionDef → Prop
  | mk {marks : List Bool} (marked : Bool) {name : Token} {params : List Token}
      {ss ss' : List Stmt} : (∀ p ∈ params, ρ.Apart marked p.lexeme) →
      StmtsRenamed (marked :: marks) ss ss' →
      FunctionDef.Renamed marks ⟨name, params, ss⟩ ⟨name, params.map (ρ.respell marked), ss'⟩

/-- The marks are those of the scopes around that of a method, which include that of its `this`. -/
inductive MethodsRenamed : List Bool → List FunctionDef → List FunctionDef → Prop
  | nil {marks : List Bool} : MethodsRenamed marks [] []
  | cons {marks : List Bool} {f f' : FunctionDef} {fs fs' : List FunctionDef} :
      FunctionDef.Renamed marks f f' → MethodsRenamed marks fs fs' →
      MethodsRenamed marks (f :: fs) (f' :: fs')

end

end

namespace FunctionDef.Renamed

variable {marks : List Bool} {f f' : FunctionDef}

theorem name (h : f.Renamed ρ marks f') : f'.name = f.name := by
  cases h
  rfl

theorem isInitializer (h : f.Renamed ρ marks f') : f'.isInitializer = f.isInitializer := by
  rw [FunctionDef.isInitializer, FunctionDef.isInitializer, h.name]

theorem length_params (h : f.Renamed ρ marks f') : f'.params.length = f.params.length := by
  cases h
  exact List.length_map _

end FunctionDef.Renamed

/-! ## Nothing replaced -/

/-- In none of some scopes is the name replaced. -/
def Unmarked (marks : List Bool) : Prop := ∀ distance, marks.getD distance false = false

section

variable {marks : List Bool} (h : Unmarked marks)

include h

theorem Unmarked.cons : Unmarked (false :: marks) := by
  intro distance
  cases distance with
  | zero => rfl
  | succ distance => exact h distance

theorem Unmarked.headD : marks.headD false = false := by
  cases marks with
  | nil => rfl
  | cons marked marks => exact h 0

theorem Unmarked.refers (id : RefId) : ρ.refers marks id = false := by
  rw [Renaming.refers]
  cases ρ.distances.get? id with
  | none => rfl
  | some distance => exact h distance

/-- Where no scope is marked, any name may be declared, -/
theorem Unmarked.apart (name : String) : ρ.Apart (marks.headD false) name := by
  rw [h.headD]
  exact fun hmarked => by cases hmarked

theorem Unmarked.other (name : String) : ρ.Other (marks.headD false) name := by
  rw [h.headD]
  exact fun hmarked => by cases hmarked

/-- and any reference may be made. -/
theorem Unmarked.refersApart (id : RefId) (name : String) :
    ρ.Apart (ρ.refers marks id) name := by
  rw [h.refers]
  exact fun hmarked => by cases hmarked

theorem Unmarked.refersOther (id : RefId) (name : String) :
    ρ.Other (ρ.refers marks id) name := by
  rw [h.refers]
  exact fun hmarked => by cases hmarked

end

mutual

theorem Expr.renamed_self {marks : List Bool} (h : Unmarked marks) (e : Expr) :
    e.Renamed ρ marks e := by
  cases e with
  | literal value => exact .literal value
  | grouping inner => exact .grouping (inner.renamed_self h)
  | unary operator right => exact .unary (right.renamed_self h)
  | binary left operator right => exact .binary (left.renamed_self h) (right.renamed_self h)
  | logical left operator right => exact .logical (left.renamed_self h) (right.renamed_self h)
  | var id name =>
    have hapart : ρ.Apart (ρ.refers marks id) name.lexeme := h.refersApart id _
    have hvar := Expr.Renamed.var hapart
    rwa [h.refers] at hvar
  | assign id name value =>
    have hapart : ρ.Apart (ρ.refers marks id) name.lexeme := h.refersApart id _
    have hassign := Expr.Renamed.assign hapart (value.renamed_self h)
    rwa [h.refers] at hassign
  | call callee paren arguments =>
    have hcallee := callee.renamed_self h
    exact .call hcallee (exprs_renamed_self h arguments)
  | get object name => exact .get (object.renamed_self h)
  | set object name value => exact .set (object.renamed_self h) (value.renamed_self h)
  | thisRef id keyword => exact .thisRef (h.refersOther id _)
  | superRef id keyword method => exact .superRef (h.refersOther id _)
termination_by structural e

theorem exprs_renamed_self {marks : List Bool} (h : Unmarked marks) (es : List Expr) :
    List.Forall₂ (Expr.Renamed ρ marks) es es := by
  cases es with
  | nil => exact .nil
  | cons e es => exact .cons (e.renamed_self h) (exprs_renamed_self h es)
termination_by structural es

end

theorem option_renamed_self {marks : List Bool} (h : Unmarked marks) (e : Option Expr) :
    Option.Rel (Expr.Renamed ρ marks) e e := by
  cases e with
  | none => exact .none
  | some e => exact .some (e.renamed_self h)

mutual

theorem Stmt.renamed_self {marks : List Bool} (h : Unmarked marks) (s : Stmt) :
    s.Renamed ρ marks s := by
  cases s with
  | expression value => exact .expression (value.renamed_self h)
  | print value => exact .print (value.renamed_self h)
  | var name initializer =>
    have hapart : ρ.Apart (marks.headD false) name.lexeme := h.apart _
    have hvar := Stmt.Renamed.var hapart (option_renamed_self h initializer)
    rwa [h.headD] at hvar
  | block body => exact .block false (stmts_renamed_self h.cons body)
  | ifElse condition thenBranch elseBranch? =>
    have hcondition : condition.Renamed ρ marks condition := condition.renamed_self h
    have hthen : thenBranch.Renamed ρ marks thenBranch := thenBranch.renamed_self h
    cases elseBranch? with
    | none => exact .ifOnly hcondition hthen
    | some elseBranch => exact .ifElse hcondition hthen (elseBranch.renamed_self h)
  | loop condition body => exact .loop (condition.renamed_self h) (body.renamed_self h)
  | function definition => exact .function (h.other _) (definition.renamed_self h)
  | ret keyword value => exact .ret (option_renamed_self h value)
  | brk keyword => exact .brk keyword
  | classDef name superclass methods =>
    cases superclass with
    | none => exact .plainClass (h.other _) (methods_renamed_self h.cons methods)
    | some clause =>
      obtain ⟨id, parent⟩ := clause
      have hother : ρ.Other (marks.headD false) name.lexeme := h.other _
      have hapart : ρ.Apart (ρ.refers marks id) parent.lexeme := h.refersApart id _
      have hmethods := methods_renamed_self h.cons.cons methods
      have hclass := Stmt.Renamed.derivedClass hother hapart hmethods
      rwa [h.refers] at hclass
termination_by structural s

theorem stmts_renamed_self {marks : List Bool} (h : Unmarked marks) (ss : List Stmt) :
    StmtsRenamed ρ marks ss ss := by
  cases ss with
  | nil => exact .nil
  | cons s ss => exact .cons (s.renamed_self h) (stmts_renamed_self h ss)
termination_by structural ss

theorem FunctionDef.renamed_self {marks : List Bool} (h : Unmarked marks) (f : FunctionDef) :
    f.Renamed ρ marks f := by
  cases f with
  | mk name params body =>
    have hbody := stmts_renamed_self h.cons body
    have hf : FunctionDef.Renamed ρ marks ⟨name, params, body⟩ _ :=
      .mk false (fun _ _ hmarked => by cases hmarked) hbody
    rwa [show params.map (ρ.respell false) = params from List.map_id params] at hf
termination_by structural f

theorem methods_renamed_self {marks : List Bool} (h : Unmarked marks) (fs : List FunctionDef) :
    MethodsRenamed ρ marks fs fs := by
  cases fs with
  | nil => exact .nil
  | cons f fs => exact .cons (f.renamed_self h) (methods_renamed_self h fs)
termination_by structural fs

end

/-! ## One scope -/

/-- Only the scope that lies a number of scopes out is marked. -/
def MarkedAt (depth : Nat) (marks : List Bool) : Prop :=
  ∀ distance, marks.getD distance false = (distance == depth)

namespace MarkedAt

variable {depth : Nat} {marks : List Bool}

theorem start (h : Unmarked marks) : MarkedAt 0 (true :: marks) := by
  intro distance
  cases distance with
  | zero => rfl
  | succ distance => exact h distance

theorem cons (h : MarkedAt depth marks) : MarkedAt (depth + 1) (false :: marks) := by
  intro distance
  cases distance with
  | zero => rfl
  | succ distance =>
    rw [List.getD_cons_succ, h distance]
    simp

theorem headD (h : MarkedAt depth marks) : marks.headD false = (depth == 0) := by
  have hhead := h 0
  rw [Bool.beq_comm] at hhead
  cases marks <;> exact hhead

theorem refers (h : MarkedAt depth marks) (id : RefId) :
    ρ.refers marks id = (ρ.distances.get? id == some depth) := by
  rw [Renaming.refers]
  cases ρ.distances.get? id with
  | none => rfl
  | some distance => simpa using h distance

end MarkedAt

end Lox
