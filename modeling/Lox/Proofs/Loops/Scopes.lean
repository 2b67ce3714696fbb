import Lox.Proofs.Loops.Direct
import Lox.Proofs.Run.Execution

set_option autoImplicit false

/-! # Scopes in which nothing is declared

The scope of a block of a body and an increment is idle: nothing is ever declared in it. Leaving out
the idle ones among the scopes around a reference changes how far out its name is declared, but not
where (`Scopes.Nest.distance?_kept`). -/

namespace Lox

/-! ## Idle scopes -/

/-- A scope that is not opened when a program runs directly. -/
def Scope.isIdle : Scope → Bool
  | .block body => isTurn body
  | _ => false

namespace Scopes

/-- The scopes that are opened when a program runs directly. -/
def kept (scopes : Scopes) : Scopes := scopes.filter fun s => !s.scope.isIdle

/-- Which of the frames of some scopes are idle. That of the global scope, the last one, is not. -/
def marks (scopes : Scopes) : List Bool := scopes.map (·.scope.isIdle) ++ [false]

/-- Whether the innermost scope is idle. -/
def idle (scopes : Scopes) : Bool := scopes.head?.any (·.scope.isIdle)

@[simp] theorem marks_cons (s : OpenScope) (scopes : Scopes) :
    Scopes.marks (s :: scopes) = s.scope.isIdle :: scopes.marks := rfl

@[simp] theorem marks_put (scopes : Scopes) (name : String) (ready : Bool) :
    (scopes.put name ready).marks = scopes.marks := by cases scopes <;> rfl

@[simp] theorem idle_put (scopes : Scopes) (name : String) (ready : Bool) :
    (scopes.put name ready).idle = scopes.idle := by cases scopes <;> rfl

@[simp] theorem marks_after (s : Stmt) (scopes : Scopes) :
    (s.after scopes).marks = scopes.marks := by
  cases s <;> first | exact marks_put .. | rfl

@[simp] theorem idle_after (s : Stmt) (scopes : Scopes) : (s.after scopes).idle = scopes.idle := by
  cases s <;> first | exact idle_put .. | rfl

/-- Where a name may be declared, the innermost frame is kept. -/
theorem head?_marks {scopes : Scopes} (h : scopes.idle = false) :
    ∃ marks, scopes.marks = false :: marks := by
  cases scopes with
  | nil => exact ⟨[], rfl⟩
  | cons s scopes =>
    refine ⟨Scopes.marks scopes, ?_⟩
    rw [marks_cons, show s.scope.isIdle = false from h]

/-- A scope that is not idle has a kept frame, which is as far out among the kept frames as the scope
    is among the kept scopes. -/
theorem marks_of_getElem? {scopes : Scopes} {d : Nat} {s : OpenScope} (h : scopes[d]? = some s)
    (hidle : s.scope.isIdle = false) :
    scopes.marks[d]? = some false ∧
      (scopes.marks.take d).count false = (Scopes.kept (scopes.take d)).length := by
  have hd : d < scopes.length := (List.getElem?_eq_some_iff.1 h).1
  constructor
  · rw [marks, List.getElem?_append_left (by simpa using hd), List.getElem?_map, h]
    exact congrArg some hidle
  · rw [marks, List.take_append_of_le_length (by simpa using Nat.le_of_lt hd), ← List.map_take, kept,
      ← List.countP_eq_length_filter, List.count, List.countP_map]
    refine List.countP_congr fun s _ => ?_
    simp

end Scopes

/-! ## Scopes as they are nested -/

/-- In a list some of whose items are left out, an item that is not left out has as many items in
    front of it as were there and were not left out. -/
theorem findIdx?_filter {α : Type} {p q : α → Bool} {l : List α}
    (h : ∀ a ∈ l, p a = true → q a = true) :
    (l.filter q).findIdx? p = (l.findIdx? p).map fun i => ((l.take i).filter q).length := by
  induction l with
  | nil => rfl
  | cons a l ih =>
    rw [List.forall_mem_cons] at h
    have ih := ih h.2
    rw [List.findIdx?_cons]
    by_cases hq : q a = true
    · rw [List.filter_cons_of_pos hq, List.findIdx?_cons, ih]
      split
      · rfl
      · simp [Function.comp_def, hq]
    · have hp : p a = false := Bool.eq_false_iff.2 fun hp => hq (h.1 hp)
      rw [List.filter_cons_of_neg hq, ih, hp]
      simp [Function.comp_def, hq]

/-- Scopes that are open at some point of a program. A name that is declared in one is chosen, and
    the scope is not idle. -/
inductive Scopes.Nest : Scopes → Prop
  | top : Nest []
  | plain {s : OpenScope} {scopes : Scopes} : Nest scopes → s.scope.Plain →
      (∀ name ready, s.names.find? name = some ready → Chosen name ∧ s.scope.isIdle = false) →
      Nest (s :: scopes)
  | method {scopes : Scopes} (f : FunctionDef) : Nest scopes → scopes.Open →
      Nest (f.receiver :: scopes)
  | derivedMethod {scopes : Scopes} (f : FunctionDef) (s : Superclass) : Nest scopes →
      Nest (f.receiver :: s.scope :: scopes)

namespace Scopes.Nest

variable {scopes : Scopes}

/-- A scope that has a name is not idle. -/
theorem not_idle (h : scopes.Nest) {s : OpenScope} (hs : s ∈ scopes) {name : String}
    (hname : (s.names.find? name).isSome) : s.scope.isIdle = false := by
  induction h with
  | top => cases hs
  | plain _ _ hnames ih =>
    rcases List.mem_cons.1 hs with rfl | hs
    · obtain ⟨ready, hready⟩ := Option.isSome_iff_exists.1 hname
      exact (hnames name ready hready).2
    · exact ih hs
  | method _ _ _ ih =>
    rcases List.mem_cons.1 hs with rfl | hs
    · rfl
    · exact ih hs
  | derivedMethod _ _ _ ih =>
    rcases List.mem_cons.1 hs with rfl | hs
    · rfl
    rcases List.mem_cons.1 hs with rfl | hs
    · rfl
    · exact ih hs

theorem put (h : scopes.Nest) (hopen : scopes.Open) (hidle : scopes.idle = false) {name : String}
    (hname : Chosen name) (ready : Bool) : (scopes.put name ready).Nest := by
  cases h with
  | top => exact .top
  | plain h hs hnames =>
    refine .plain h hs fun other ready' hfind => ?_
    dsimp only at hfind
    rw [Bindings.find?_bind] at hfind
    split at hfind
    · next heq => exact ⟨heq ▸ hname, hidle⟩
    · exact hnames other ready' hfind
  | method f => exact (hopen _ rfl).elim
  | derivedMethod f s => exact (hopen _ rfl).elim

theorem block (h : scopes.Nest) (body : List Stmt) : Nest (⟨.block body, []⟩ :: scopes) :=
  .plain h trivial fun _ _ hname => by cases hname

theorem call (h : scopes.Nest) {f : FunctionDef} (hparams : ∀ p ∈ f.params, Chosen p.lexeme) :
    Nest (f.scope :: scopes) := by
  refine .plain h trivial fun name ready hfind => ⟨?_, rfl⟩
  rcases FunctionDef.of_find?_names hfind with h | ⟨p, hp, rfl⟩
  · cases h
  · exact hparams p hp

/-! ### Distances -/

/-- Without the idle scopes, a name is declared that much less far out. -/
theorem distance?_kept (h : scopes.Nest) (name : String) :
    scopes.kept.distance? name =
      (scopes.distance? name).map fun d => (Scopes.kept (scopes.take d)).length :=
  findIdx?_filter fun s hs hname => by rw [h.not_idle hs hname]; rfl

/-- Where a class has a superclass, the scope just inside that of `super` is that of `this`. -/
theorem super (h : scopes.Nest) : ∀ {d : Nat}, scopes.classSort = .derived →
    scopes.distance? "super" = some d →
      ∃ inner s, d = inner + 1 ∧ scopes[inner]? = some s ∧ s.scope.isIdle = false := by
  induction h with
  | top => exact fun hsort => nomatch hsort
  | @plain s _ _ hs hnames ih =>
    intro d hsort hd
    have hnone : s.names.find? "super" = none :=
      Option.eq_none_iff_forall_not_mem.2 fun ready hfind =>
        not_chosen_super (hnames _ ready hfind).1
    rw [Scopes.classSort_cons hs] at hsort
    rw [Scopes.distance?_cons, hnone] at hd
    -- `super` is no name that a program can choose, so it is found further out
    obtain ⟨outer, houter, rfl⟩ := Option.map_eq_some_iff.1 hd
    obtain ⟨inner, s', rfl, hs'⟩ := ih hsort houter
    exact ⟨inner + 1, s', rfl, hs'⟩
  | method f _ hopen =>
    intro d hsort
    rw [Scopes.classSort_receiver hopen.inside] at hsort
    exact nomatch hsort
  | derivedMethod f s =>
    intro d _ hd
    cases hd
    exact ⟨0, f.receiver, rfl, rfl, rfl⟩

end Scopes.Nest

/-! ## Sites -/

/-- Statements may stand in some scopes: if one of them declares a name, the innermost scope is not
    idle. -/
structure Scopes.Takes (scopes : Scopes) (declares : Bool) : Prop where
  nest : scopes.Nest
  plain : scopes.Open
  kept : declares = true → scopes.idle = false

namespace Scopes.Takes

variable {scopes : Scopes} {declares declares' : Bool}

theorem mono (h : scopes.Takes declares) (hle : declares' = true → declares = true) :
    scopes.Takes declares' :=
  ⟨h.nest, h.plain, fun hd => h.kept (hle hd)⟩

/-- A branch declares nothing. -/
theorem branch (h : scopes.Takes declares) (hd : declares' = false) : scopes.Takes declares' :=
  h.mono fun hd' => Bool.noConfusion (hd'.symm.trans hd)

theorem put (h : scopes.Takes true) {name : String} (hname : Chosen name) (ready : Bool) :
    (scopes.put name ready).Nest :=
  h.nest.put h.plain (h.kept rfl) hname ready

theorem after (h : scopes.Takes declares) {s : Stmt} (hs : s.declares = true → declares = true)
    (hp : s.Proper) : (s.after scopes).Takes declares := by
  refine ⟨?_, h.plain.after s, fun hd => (idle_after s scopes).trans (h.kept hd)⟩
  have h := h.mono hs
  cases s with
  | var name initializer => exact h.put hp.1 true
  | function definition => exact h.put hp.1 true
  | classDef name superclass methods =>
    refine h.put ?_ true
    cases superclass <;> exact hp.1
  | _ => exact h.nest

/-- In a block of a body and an increment nothing is declared. -/
theorem block (h : scopes.Nest) (body : List Stmt) :
    Takes (⟨.block body, []⟩ :: scopes) (body.any Stmt.declares) := by
  refine ⟨h.block body, fun s hs => by cases hs; trivial,
    fun hd => Bool.eq_false_iff.2 fun hturn => ?_⟩
  obtain ⟨s, hs, hdeclares⟩ := List.any_eq_true.1 hd
  rw [not_declares_of_isTurn hturn s hs] at hdeclares
  cases hdeclares

theorem call (h : scopes.Nest) {f : FunctionDef} (hparams : ∀ p ∈ f.params, Chosen p.lexeme)
    (declares : Bool) : Takes (f.scope :: scopes) declares :=
  ⟨h.call hparams, fun s hs => by cases hs; trivial, fun _ => rfl⟩

end Scopes.Takes

theorem nest_sitesAt {scopes : Scopes} (h : scopes.Nest) (references : List Reference) :
    ∀ site ∈ sitesAt scopes references, site.scopes.Nest := by
  intro site hsite
  obtain ⟨r, -, rfl⟩ := List.mem_map.1 hsite
  exact h

mutual

/-- Around each reference of a statement, scopes are nested as those around the statement are. -/
theorem Stmt.nest_sites (s : Stmt) {scopes : Scopes} (h : scopes.Takes s.declares) (hp : s.Proper) :
    ∀ site ∈ s.sites scopes, site.scopes.Nest := by
  cases s with
  | expression _ | print _ | ret _ _ => exact nest_sitesAt h.nest _
  | var _ _ => exact nest_sitesAt (h.put hp.1 false) _
  | block body => exact nest_stmtSites body (.block h.nest body) hp
  | ifElse _ thenBranch elseBranch? =>
    cases elseBranch? with
    | none =>
      have hthen := thenBranch.nest_sites (h.branch hp.2.2) hp.2.1
      exact List.forall_mem_append.2 ⟨nest_sitesAt h.nest _, hthen⟩
    | some elseBranch =>
      have hthen := thenBranch.nest_sites (h.branch hp.2.1.2) hp.2.1.1
      have helse := elseBranch.nest_sites (h.branch hp.2.2.2) hp.2.2.1
      refine List.forall_mem_append.2 ⟨?_, helse⟩
      exact List.forall_mem_append.2 ⟨nest_sitesAt h.nest _, hthen⟩
  | loop _ body =>
    have hbody := body.nest_sites (h.branch hp.2.2) hp.2.1
    exact List.forall_mem_append.2 ⟨nest_sitesAt h.nest _, hbody⟩
  | function definition => exact definition.nest_sites (h.put hp.1 true) hp.2
  | brk _ => exact nofun
  | classDef _ superclass methods =>
    cases superclass with
    | none =>
      refine nest_methodSites methods (fun f => ?_) hp.2
      exact .method f (h.put hp.1 true) (h.plain.put _ _)
    | some clause =>
      refine List.forall_mem_cons.2 ⟨h.put hp.1 false, ?_⟩
      exact nest_methodSites methods (fun f => .derivedMethod f clause (h.put hp.1 true)) hp.2.2
termination_by structural s

theorem nest_stmtSites (ss : List Stmt) {scopes : Scopes} (h : scopes.Takes (ss.any Stmt.declares))
    (hp : ProperStmts ss) : ∀ site ∈ stmtSites scopes ss, site.scopes.Nest := by
  cases ss with
  | nil => exact nofun
  | cons s ss =>
    rw [List.any_cons] at h
    have hhead : s.declares = true → (s.declares || ss.any Stmt.declares) = true := by simp_all
    have hbehind : (s.after scopes).Takes (ss.any Stmt.declares) :=
      (h.after hhead hp.1).mono (by simp_all)
    have hfirst := s.nest_sites (h.mono hhead) hp.1
    exact List.forall_mem_append.2 ⟨hfirst, nest_stmtSites ss hbehind hp.2⟩
termination_by structural ss

theorem FunctionDef.nest_sites (f : FunctionDef) {scopes : Scopes} (h : scopes.Nest)
    (hp : f.Proper) : ∀ site ∈ f.sites scopes, site.scopes.Nest := by
  cases f with
  | mk name params body =>
    exact nest_stmtSites body (.call (f := ⟨name, params, body⟩) h hp.1 _) hp.2
termination_by structural f

theorem nest_methodSites (fs : List FunctionDef) {scopes : Scopes}
    (h : ∀ f : FunctionDef, Scopes.Nest (f.receiver :: scopes)) (hp : ProperMethods fs) :
    ∀ site ∈ methodSites scopes fs, site.scopes.Nest := by
  cases fs with
  | nil => exact nofun
  | cons f fs =>
    have hfirst := f.nest_sites (h f) hp.1
    exact List.forall_mem_append.2 ⟨hfirst, nest_methodSites fs h hp.2⟩
termination_by structural fs

end

/-- Around the references of a program, scopes are nested. -/
theorem nest_programSites {program : List Stmt} (hp : ProperStmts program) :
    ∀ site ∈ stmtSites [] program, site.scopes.Nest :=
  nest_stmtSites program ⟨.top, nofun, fun _ => rfl⟩ hp

end Lox
