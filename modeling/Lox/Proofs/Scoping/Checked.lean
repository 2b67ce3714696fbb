import Lox.Proofs.Grammar.Trees
import Lox.Proofs.Scoping.Sites

set_option autoImplicit false

/-! # Programs whose names are resolved

`Site.Right` says what resolving has to achieve for one reference, `Site.Placed` that the reference
may stand where it stands. `Stmt.Checked` collects what a run relies on in the text of a statement:
that each of its references is known to be right, that no declared name is reserved, that branches
declare nothing, and that a `return` is inside a function and a `break` inside a loop of the same
function. -/

namespace Lox

/-! ## References -/

/-- The distance known for a reference is the one that its name has there, and a variable that is
    read there has its initializer behind it. -/
structure Site.Right (distances : Distances) (site : Site) : Prop where
  distance : distances.get? site.reference.id = site.distance?
  ready : site.reference.sort = .var ∨ site.reference.sort = .superclass →
    ∀ d s, site.distance? = some d → site.scopes[d]? = some s →
      s.names.find? site.reference.token.lexeme = some true
  spelled : site.reference.Spelled
  derived : site.reference.sort = .super → site.distance?.isSome → site.scopes.classSort = .derived

/-- `this` stands in a class, `super` in a class that has a superclass. -/
structure Site.Placed (site : Site) : Prop where
  this : site.reference.sort = .this → site.scopes.classSort ≠ .noClass
  super : site.reference.sort = .super → site.scopes.classSort = .derived

theorem Site.Right.of_get?_eq {site : Site} {distances distances' : Distances}
    (h : site.Right distances)
    (heq : distances'.get? site.reference.id = distances.get? site.reference.id) :
    site.Right distances' :=
  ⟨heq.trans h.distance, h.ready, h.spelled, h.derived⟩

/-! ## Statements -/

mutual

/-- What a run relies on in the text of a statement. -/
def Stmt.Checked (known : Site → Prop) (scopes : Scopes) (inFunction inLoop : Bool) : Stmt → Prop
  | .expression value => ∀ r ∈ value.references, known ⟨r, scopes⟩
  | .print value => ∀ r ∈ value.references, known ⟨r, scopes⟩
  | .var name initializer =>
    Chosen name.lexeme ∧
      ∀ r ∈ optionReferences initializer, known ⟨r, scopes.put name.lexeme false⟩
  | .block body => CheckedStmts known (⟨.block body, []⟩ :: scopes) inFunction inLoop body
  | .ifElse condition thenBranch none =>
    (∀ r ∈ condition.references, known ⟨r, scopes⟩) ∧
      thenBranch.Checked known scopes inFunction inLoop ∧ thenBranch.declares = false
  | .ifElse condition thenBranch (some elseBranch) =>
    (∀ r ∈ condition.references, known ⟨r, scopes⟩) ∧
      (thenBranch.Checked known scopes inFunction inLoop ∧ thenBranch.declares = false) ∧
      elseBranch.Checked known scopes inFunction inLoop ∧ elseBranch.declares = false
  | .loop condition body =>
    (∀ r ∈ condition.references, known ⟨r, scopes⟩) ∧
      body.Checked known scopes inFunction true ∧ body.declares = false
  | .function definition =>
    Chosen definition.name.lexeme ∧
      definition.Checked known (scopes.put definition.name.lexeme true)
  | .ret _ value => inFunction = true ∧ ∀ r ∈ optionReferences value, known ⟨r, scopes⟩
  | .brk _ => inLoop = true
  | .classDef name none methods =>
    Chosen name.lexeme ∧ CheckedMethods known (scopes.put name.lexeme true) methods
  | .classDef name (some s) methods =>
    Chosen name.lexeme ∧ known ⟨⟨.superclass, s.id, s.name⟩, scopes.put name.lexeme false⟩ ∧
      CheckedMethods known (s.scope :: scopes.put name.lexeme true) methods

def CheckedStmts (known : Site → Prop) (scopes : Scopes) (inFunction inLoop : Bool) :
    List Stmt → Prop
  | [] => True
  | s :: ss =>
    s.Checked known scopes inFunction inLoop ∧
      CheckedStmts known (s.after scopes) inFunction inLoop ss

def FunctionDef.Checked (known : Site → Prop) (scopes : Scopes) : FunctionDef → Prop
  | ⟨name, params, body⟩ =>
    (∀ p ∈ params, Chosen p.lexeme) ∧
      CheckedStmts known (FunctionDef.scope ⟨name, params, body⟩ :: scopes) true false body

def CheckedMethods (known : Site → Prop) (scopes : Scopes) : List FunctionDef → Prop
  | [] => True
  | f :: fs => f.Checked known (f.receiver :: scopes) ∧ CheckedMethods known scopes fs

end

theorem Stmt.after_of_not_declares {s : Stmt} (h : s.declares = false) (scopes : Scopes) :
    s.after scopes = scopes := by
  cases s <;> first | rfl | exact nomatch h

theorem checked_of_mem_methods {known : Site → Prop} {scopes : Scopes} {fs : List FunctionDef}
    {f : FunctionDef} (h : CheckedMethods known scopes fs) (hf : f ∈ fs) :
    f.Checked known (f.receiver :: scopes) := by
  induction fs with
  | nil => exact nomatch hf
  | cons g fs ih =>
    rcases List.mem_cons.1 hf with rfl | hf
    · exact h.1
    · exact ih h.2 hf

theorem FunctionDef.Checked.chosen {known : Site → Prop} {scopes : Scopes} {f : FunctionDef}
    (h : f.Checked known scopes) {p : Token} (hp : p ∈ f.params) : Chosen p.lexeme := by
  cases f
  exact h.1 p hp

theorem FunctionDef.Checked.body {known : Site → Prop} {scopes : Scopes} {f : FunctionDef}
    (h : f.Checked known scopes) : CheckedStmts known (f.scope :: scopes) true false f.body := by
  cases f
  exact h.2

/-! ## More references are known -/

section

variable {known known' : Site → Prop}

mutual

theorem Stmt.Checked.mono (hk : ∀ site, known site → known' site) (s : Stmt) {scopes : Scopes}
    {inFunction inLoop : Bool} (h : s.Checked known scopes inFunction inLoop) :
    s.Checked known' scopes inFunction inLoop := by
  cases s with
  | expression _ | print _ => exact fun r hr => hk _ (h r hr)
  | var _ _ => exact ⟨h.1, fun r hr => hk _ (h.2 r hr)⟩
  | block body => exact checkedStmts_mono hk body h
  | ifElse _ thenBranch elseBranch? =>
    cases elseBranch? with
    | none =>
      obtain ⟨hcondition, hthen, hplace⟩ := h
      exact ⟨fun r hr => hk _ (hcondition r hr), Stmt.Checked.mono hk thenBranch hthen, hplace⟩
    | some elseBranch =>
      obtain ⟨hcondition, ⟨hthen, hplace⟩, helse, hplace'⟩ := h
      refine ⟨fun r hr => hk _ (hcondition r hr), ⟨?_, hplace⟩, ?_, hplace'⟩
      · exact Stmt.Checked.mono hk thenBranch hthen
      · exact Stmt.Checked.mono hk elseBranch helse
  | loop _ body =>
    obtain ⟨hcondition, hbody, hplace⟩ := h
    exact ⟨fun r hr => hk _ (hcondition r hr), Stmt.Checked.mono hk body hbody, hplace⟩
  | function definition => exact ⟨h.1, FunctionDef.Checked.mono hk definition h.2⟩
  | ret _ _ => exact ⟨h.1, fun r hr => hk _ (h.2 r hr)⟩
  | brk _ => exact h
  | classDef _ superclass methods =>
    cases superclass with
    | none => exact ⟨h.1, checkedMethods_mono hk methods h.2⟩
    | some _ =>
      exact ⟨h.1, hk _ h.2.1, checkedMethods_mono hk methods h.2.2⟩
termination_by structural s

theorem checkedStmts_mono (hk : ∀ site, known site → known' site) (ss : List Stmt) {scopes : Scopes}
    {inFunction inLoop : Bool} (h : CheckedStmts known scopes inFunction inLoop ss) :
    CheckedStmts known' scopes inFunction inLoop ss := by
  cases ss with
  | nil => trivial
  | cons s ss => exact ⟨Stmt.Checked.mono hk s h.1, checkedStmts_mono hk ss h.2⟩
termination_by structural ss

theorem FunctionDef.Checked.mono (hk : ∀ site, known site → known' site) (f : FunctionDef)
    {scopes : Scopes} (h : f.Checked known scopes) : f.Checked known' scopes := by
  cases f with
  | mk _ _ body => exact ⟨h.1, checkedStmts_mono hk body h.2⟩
termination_by structural f

theorem checkedMethods_mono (hk : ∀ site, known site → known' site) (fs : List FunctionDef)
    {scopes : Scopes} (h : CheckedMethods known scopes fs) : CheckedMethods known' scopes fs := by
  cases fs with
  | nil => trivial
  | cons f fs => exact ⟨FunctionDef.Checked.mono hk f h.1, checkedMethods_mono hk fs h.2⟩
termination_by structural fs

end

end

end Lox
