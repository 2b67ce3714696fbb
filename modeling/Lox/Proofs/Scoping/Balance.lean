import Lox.Proofs.Scoping.Occurrences
import Lox.Proofs.Scoping.Walk

set_option autoImplicit false

/-! # Resolving is balanced

Whatever state the walk is in, and whatever problems it comes by, it has set back behind a part of
the program all that it set on its way (`Walk.SetsBack`), and in the innermost scope it knows the
names that the part declares besides those it knew before (`Walk.Balanced`). No walk is left out:
the scopes may hold any names, and none of the surroundings has to fit the text.

Behind a whole program, then, the walk is as it was at the start but for what it found. -/

namespace Lox

namespace Walk

/-- What the walk sets back behind a part of the program: all it keeps of a point but for the names
    in the innermost scope. -/
structure SetsBack (w w' : Walk) : Prop where
  depth : w'.scopes.length = w.scopes.length
  outer : w'.scopes.tail = w.scopes.tail
  body : w'.body = w.body
  classSort : w'.classSort = w.classSort
  loops : w'.loops = w.loops

/-- What the walk keeps of a point behind a part that declares some names. The names are ready in
    the innermost scope, if a scope is open, and all others are known there as before. -/
structure Balanced (declared : List String) (w w' : Walk) : Prop extends SetsBack w w' where
  innermost : ∀ name, w'.innermost? name =
    if !w.scopes.isEmpty && declared.contains name then some true else w.innermost? name

variable {declared declared' : List String} {w w₁ w' : Walk}

/-! ## Parts one behind the other -/

namespace SetsBack

theorem of_scopes (hscopes : w'.scopes = w.scopes) (hbody : w'.body = w.body)
    (hclass : w'.classSort = w.classSort) (hloops : w'.loops = w.loops) : SetsBack w w' :=
  ⟨by rw [hscopes], by rw [hscopes], hbody, hclass, hloops⟩

theorem trans (h : SetsBack w w₁) (h' : SetsBack w₁ w') : SetsBack w w' where
  depth := h'.depth.trans h.depth
  outer := h'.outer.trans h.outer
  body := h'.body.trans h.body
  classSort := h'.classSort.trans h.classSort
  loops := h'.loops.trans h.loops

theorem symm (h : SetsBack w w') : SetsBack w' w :=
  ⟨h.depth.symm, h.outer.symm, h.body.symm, h.classSort.symm, h.loops.symm⟩

theorem isEmpty_scopes (h : SetsBack w w') : w'.scopes.isEmpty = w.scopes.isEmpty := by
  rw [Bool.eq_iff_iff, List.isEmpty_iff_length_eq_zero, List.isEmpty_iff_length_eq_zero, h.depth]

end SetsBack

namespace Balanced

/-- A part that moves no scope declares nothing. -/
theorem of_scopes (hscopes : w'.scopes = w.scopes) (hbody : w'.body = w.body)
    (hclass : w'.classSort = w.classSort) (hloops : w'.loops = w.loops) : Balanced [] w w' :=
  ⟨.of_scopes hscopes hbody hclass hloops, fun name => by
    rw [innermost?, innermost?, hscopes]
    simp⟩

theorem refl (w : Walk) : Balanced [] w w := of_scopes rfl rfl rfl rfl

theorem trans (h : Balanced declared w w₁) (h' : Balanced declared' w₁ w') :
    Balanced (declared ++ declared') w w' where
  toSetsBack := h.toSetsBack.trans h'.toSetsBack
  innermost name := by
    rw [h'.innermost, h.innermost, h.isEmpty_scopes, List.contains_append]
    cases w.scopes.isEmpty <;> cases declared.contains name <;>
      cases declared'.contains name <;> rfl

theorem of_checks (h : Checks w w') : Balanced [] w w' :=
  of_scopes h.scopes h.body h.classSort h.loops

theorem of_finds {references : List Reference} (h : Finds references w w') : Balanced [] w w' :=
  of_scopes h.scopes h.body h.classSort h.loops

end Balanced

/-! ## Scopes that are entered and left -/

/-- A scope that is left is gone with all its names. -/
theorem SetsBack.leaveScope (h : SetsBack w.enterScope w') : Balanced [] w w'.leaveScope :=
  .of_scopes h.outer h.body h.classSort h.loops

/-- The body of a loop is in one loop more. -/
theorem Balanced.inLoop (h : Balanced declared { w with loops := w.loops + 1 } w') :
    Balanced declared w { w' with loops := w'.loops - 1 } :=
  ⟨⟨h.depth, h.outer, h.body, h.classSort, by
    show w'.loops - 1 = w.loops
    rw [h.loops]
    rfl⟩, h.innermost⟩

/-! ## Declarations -/

theorem put_setsBack (name : String) (ready : Bool) (w : Walk) : SetsBack w (w.put name ready) := by
  unfold put
  split
  · exact .of_scopes rfl rfl rfl rfl
  · next h => exact ⟨by rw [h]; rfl, by rw [h]; rfl, rfl, rfl, rfl⟩

theorem declare_setsBack (name : Token) (w : Walk) : SetsBack w (w.declare name) := by
  unfold declare
  split
  · exact .of_scopes rfl rfl rfl rfl
  · exact put_setsBack name.lexeme false w

/-- A declaration, be it the second one of its name, moves no other name. -/
theorem innermost?_declare_of_ne {name : Token} {other : String} (h : other ≠ name.lexeme)
    (w : Walk) : (w.declare name).innermost? other = w.innermost? other := by
  unfold declare
  split
  · rfl
  · rw [innermost?_put]
    simp [h]

/-- A name is declared, then comes what moves no scope, then the name is made ready. -/
theorem Balanced.define {name : Token} (h : Balanced [] (w.declare name) w') :
    Balanced [name.lexeme] w (w'.define name) where
  toSetsBack := ((declare_setsBack name w).trans h.toSetsBack).trans (put_setsBack _ true w')
  innermost other := by
    have hempty : w'.scopes.isEmpty = w.scopes.isEmpty :=
      ((declare_setsBack name w).trans h.toSetsBack).isEmpty_scopes
    rw [Walk.define, innermost?_put, hempty, h.innermost]
    by_cases hother : other = name.lexeme
    · subst hother
      cases hscopes : w.scopes with
      | nil => simp [Walk.declare, Walk.innermost?, put, hscopes]
      | cons => simp
    · simp [hother, innermost?_declare_of_ne hother]

end Walk

open Walk

theorem resolveParams_balanced (ps : List Token) (w : Walk) :
    Balanced (ps.map Token.lexeme) w (resolveParams ps w) := by
  induction ps generalizing w with
  | nil => exact .refl w
  | cons p ps ih => exact (Balanced.define (.refl (w.declare p))).trans (ih _)

/-- The scopes of a class are left as they were entered, one for `this` and, where there is a
    superclass, one for `super` around it. -/
theorem leaveClass_balanced (name : Token) (superclass : Option Superclass) {w w' : Walk}
    (h : SetsBack (enterClass name superclass w) w') :
    Balanced [] ((w.declare name).define name) (leaveClass superclass w.classSort w') := by
  let named := (w.declare name).define name
  have hsort : named.classSort = w.classSort := (Balanced.define (.refl (w.declare name))).classSort
  cases superclass with
  | none =>
    exact .of_scopes h.outer (h.body.trans (put_body ..)) hsort.symm (h.loops.trans (put_loops ..))
  | some s =>
    let plain : Walk := { named with classSort := .plain }
    let checked := plain.reportIf (s.name.lexeme == name.lexeme) s.name .inheritsFromItself
    have hchecks : Checks plain checked := reportIf_checks ..
    have hscopes : (checked.locate s.id s.name).scopes = named.scopes :=
      (locate_scopes ..).trans hchecks.scopes
    have hbody : (enterClass name (some s) w).body = named.body := by
      simpa [enterClass, enterScope, locate_body] using hchecks.body
    have hloops : (enterClass name (some s) w).loops = named.loops := by
      simpa [enterClass, enterScope, locate_loops] using hchecks.loops
    exact .of_scopes ((congrArg List.tail h.outer).trans hscopes) (h.body.trans hbody) hsort.symm
      (h.loops.trans hloops)

/-! ## Statements -/

mutual

/-- Resolving a statement is balanced. -/
theorem Stmt.resolve_balanced (s : Stmt) (w : Walk) : Balanced s.declared w (s.resolve w) := by
  cases s with
  | expression value | print value => exact .of_finds (value.resolve_finds w)
  | var _ initializer => exact .define (.of_finds (resolveOption_finds initializer _))
  | block body => exact (resolveStmts_balanced body w.enterScope).leaveScope
  | ifElse condition thenBranch elseBranch? =>
    cases elseBranch? with
    | none =>
      have hcondition := Balanced.of_finds (condition.resolve_finds w)
      exact hcondition.trans (thenBranch.resolve_balanced _)
    | some elseBranch =>
      have hcondition := Balanced.of_finds (condition.resolve_finds w)
      have hthen := hcondition.trans (thenBranch.resolve_balanced _)
      exact hthen.trans (elseBranch.resolve_balanced _)
  | loop condition body =>
    have hcondition := Balanced.of_finds (condition.resolve_finds w)
    exact hcondition.trans (body.resolve_balanced _).inLoop
  | function definition =>
    have hname := Balanced.define (.refl (w.declare definition.name))
    exact hname.trans (definition.resolve_balanced .function _)
  | ret keyword value =>
    have hplace := Balanced.of_checks
      (reportIf_checks (w.body == .topLevel) keyword .returnOutsideFunction w)
    have hvalue := fun bad =>
      hplace.trans (.of_checks (reportIf_checks bad keyword .returnValueFromInitializer _))
    exact (hvalue _).trans (.of_finds (resolveOption_finds value _))
  | brk keyword => exact .of_checks (reportIf_checks _ keyword _ w)
  | classDef name superclass methods =>
    have hname := Balanced.define (.refl (w.declare name))
    have hmethods := (resolveMethods_balanced methods (enterClass name superclass w)).toSetsBack
    exact hname.trans (leaveClass_balanced name superclass hmethods)
termination_by structural s

theorem resolveStmts_balanced (ss : List Stmt) (w : Walk) :
    Balanced (ss.flatMap Stmt.declared) w (resolveStmts ss w) := by
  cases ss with
  | nil => exact .refl w
  | cons s ss =>
    have hfirst := s.resolve_balanced w
    exact hfirst.trans (resolveStmts_balanced ss _)
termination_by structural ss

theorem FunctionDef.resolve_balanced (f : FunctionDef) (sort : BodySort) (w : Walk) :
    Balanced [] w (f.resolve sort w) := by
  cases f with
  | mk _ params body =>
    let entered := { w with body := sort, loops := 0 }.enterScope
    have hbody := (resolveParams_balanced params entered).trans (resolveStmts_balanced body _)
    exact .of_scopes hbody.outer rfl hbody.classSort rfl
termination_by structural f

theorem resolveMethods_balanced (fs : List FunctionDef) (w : Walk) :
    Balanced [] w (resolveMethods fs w) := by
  cases fs with
  | nil => exact .refl w
  | cons f fs => exact (f.resolve_balanced _ w).trans (resolveMethods_balanced fs _)
termination_by structural fs

end

end Lox
