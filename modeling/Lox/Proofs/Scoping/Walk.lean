import Lox.Proofs.Scoping.Checked

set_option autoImplicit false

/-! # The walk, step by step

Whatever the walk is given, it only adds problems, and it records distances for references of its own
tree alone (`Walk.Extends`). An expression moves nothing else, and if it adds no problem, each of its
references is recorded with the distance of its name (`Walk.Finds`). -/

namespace Lox

theorem Bindings.bind_bind {α : Type} (name : String) (a b : α) (bindings : Bindings α) :
    (bindings.bind name a).bind name b = bindings.bind name b := by
  induction bindings with
  | nil => simp [bind]
  | cons entry rest ih =>
    obtain ⟨n, v⟩ := entry
    by_cases hn : n = name
    · simp [bind, hn]
    · simp [bind, hn, ih]

namespace Walk

/-! ## What the walk may change -/

/-- What any part of the walk does, given the identities of its references. -/
structure Extends (ids : List RefId) (w w' : Walk) : Prop where
  problems : ∃ more, w'.problems = w.problems ++ more
  distances : ∀ id, id ∉ ids → w'.distances.get? id = w.distances.get? id

namespace Extends

variable {ids ids' : List RefId} {w w₁ w' : Walk}

theorem refl (w : Walk) : Extends [] w w := ⟨⟨#[], by simp⟩, fun _ _ => rfl⟩

theorem trans (h : Extends ids w w₁) (h' : Extends ids' w₁ w') : Extends (ids ++ ids') w w' := by
  obtain ⟨more, hmore⟩ := h.problems
  obtain ⟨more', hmore'⟩ := h'.problems
  refine ⟨⟨more ++ more', by rw [hmore', hmore, Array.append_assoc]⟩, fun id hid => ?_⟩
  rw [List.mem_append, not_or] at hid
  rw [h'.distances id hid.2, h.distances id hid.1]

theorem perm (h : Extends ids w w') (hp : ∀ id, id ∈ ids → id ∈ ids') : Extends ids' w w' :=
  ⟨h.problems, fun id hid => h.distances id fun hmem => hid (hp id hmem)⟩

/-- If no problem was added on the whole way, none was added on either part of it. -/
theorem quiet (h : Extends ids w w₁) (h' : Extends ids' w₁ w') (hq : w'.problems = w.problems) :
    w₁.problems = w.problems ∧ w'.problems = w₁.problems := by
  obtain ⟨more, hmore⟩ := h.problems
  obtain ⟨more', hmore'⟩ := h'.problems
  have hsize : w.problems.size = w.problems.size + more.size + more'.size := by
    rw [← Array.size_append, ← hmore, ← Array.size_append, ← hmore', hq]
  have hnil : more = #[] := Array.eq_empty_of_size_eq_zero (by omega)
  have h₁ : w₁.problems = w.problems := by rw [hmore, hnil, Array.append_empty]
  exact ⟨h₁, hq.trans h₁.symm⟩

/-- A step that leaves problems and distances alone may stand in front or behind. -/
theorem of_eq (hp : w'.problems = w.problems) (hd : w'.distances = w.distances) :
    Extends [] w w' :=
  ⟨⟨#[], by simp [hp]⟩, fun _ _ => by rw [hd]⟩

/-- What else is set at the beginning and at the end does not matter. -/
theorem within {w₂ : Walk} (h : Extends ids w₁ w₂) (hp : w₁.problems = w.problems)
    (hd : w₁.distances = w.distances) (hp' : w'.problems = w₂.problems)
    (hd' : w'.distances = w₂.distances) : Extends ids w w' := by
  obtain ⟨more, hmore⟩ := h.problems
  refine ⟨⟨more, by rw [hp', hmore, hp]⟩, fun id hid => ?_⟩
  rw [hd', h.distances id hid, hd]

end Extends

theorem reportIf_extends (bad : Bool) (token : Token) (problem : StaticProblem) (w : Walk) :
    Extends [] w (w.reportIf bad token problem) := by
  unfold reportIf
  split
  · exact ⟨⟨#[(token, problem)], by simp [report]⟩, fun _ _ => rfl⟩
  · exact .refl w

/-- A report is not without a trace. -/
theorem bad_of_quiet {bad : Bool} {token : Token} {problem : StaticProblem} {w : Walk}
    (hq : (w.reportIf bad token problem).problems = w.problems) : bad = false := by
  cases bad with
  | false => rfl
  | true =>
    have := congrArg Array.size hq
    simp [reportIf, report] at this

theorem declare_extends (name : Token) (w : Walk) : Extends [] w (w.declare name) := by
  unfold declare
  split
  · exact ⟨⟨#[(name, .alreadyDeclared)], by simp [report]⟩, fun _ _ => rfl⟩
  · unfold put
    split
    · exact .refl w
    · exact .of_eq rfl rfl

@[simp] theorem put_problems (name : String) (ready : Bool) (w : Walk) :
    (w.put name ready).problems = w.problems := by unfold put; split <;> rfl

@[simp] theorem put_distances (name : String) (ready : Bool) (w : Walk) :
    (w.put name ready).distances = w.distances := by unfold put; split <;> rfl

@[simp] theorem put_body (name : String) (ready : Bool) (w : Walk) :
    (w.put name ready).body = w.body := by unfold put; split <;> rfl

@[simp] theorem put_loops (name : String) (ready : Bool) (w : Walk) :
    (w.put name ready).loops = w.loops := by unfold put; split <;> rfl

@[simp] theorem put_failed (name : String) (ready : Bool) (w : Walk) :
    (w.put name ready).failed = w.failed := by unfold put; split <;> rfl

@[simp] theorem put_classSort (name : String) (ready : Bool) (w : Walk) :
    (w.put name ready).classSort = w.classSort := by unfold put; split <;> rfl

theorem innermost?_put (name other : String) (ready : Bool) (w : Walk) :
    (w.put name ready).innermost? other =
      if !w.scopes.isEmpty && other == name then some ready else w.innermost? other := by
  unfold put innermost?
  cases h : w.scopes with
  | nil => simp [h]
  | cons scope outer => simp [Bindings.find?_bind]

theorem define_extends (name : Token) (w : Walk) : Extends [] w (w.define name) :=
  .of_eq (put_problems _ _ w) (put_distances _ _ w)

/-- A name that is declared without a problem is now in the innermost scope. -/
theorem declare_of_quiet {name : Token} {w : Walk} (hq : (w.declare name).problems = w.problems) :
    w.declare name = w.put name.lexeme false := by
  unfold declare at hq ⊢
  split
  · next h =>
    rw [if_pos h] at hq
    have := congrArg Array.size hq
    simp [report] at this
  · rfl

theorem put_put (name : String) (a b : Bool) (w : Walk) :
    (w.put name a).put name b = w.put name b := by
  cases w with
  | mk scopes _ _ _ _ _ _ => cases scopes <;> simp [put, Bindings.bind_bind]

theorem locate_extends (id : RefId) (name : Token) (w : Walk) :
    Extends [id] w (w.locate id name) := by
  unfold locate
  split
  · refine ⟨⟨#[], by simp⟩, fun other hother => ?_⟩
    rw [Distances.get?_record, if_neg (by simpa using hother)]
  · exact (Extends.refl w).perm (by simp)

/-! ## Expressions -/

/-- What a reference is recorded as, and what is checked of it. -/
structure Locates (w : Walk) (distances : Distances) (r : Reference) : Prop where
  distance : distances.get? r.id = w.distance? r.token.lexeme
  ready : r.sort = .var ∨ r.sort = .superclass → w.innermost? r.token.lexeme ≠ some false
  this : r.sort = .this → w.classSort ≠ .noClass
  super : r.sort = .super → w.classSort = .derived

/-- What the walk over expressions does, given their references. -/
structure Finds (references : List Reference) (w w' : Walk) : Prop
    extends Extends (references.map Reference.id) w w' where
  scopes : w'.scopes = w.scopes
  body : w'.body = w.body
  classSort : w'.classSort = w.classSort
  loops : w'.loops = w.loops
  locates : w'.problems = w.problems → (references.map Reference.id).Nodup →
    ∀ r ∈ references, w.distances.get? r.id = none → w.Locates w'.distances r

namespace Finds

variable {rs rs' : List Reference} {w w₁ w' : Walk}

theorem nil (w : Walk) : Finds [] w w where
  toExtends := .refl w
  scopes := rfl
  body := rfl
  classSort := rfl
  loops := rfl
  locates := fun _ _ _ hr => nomatch hr

theorem append (h : Finds rs w w₁) (h' : Finds rs' w₁ w') : Finds (rs ++ rs') w w' where
  toExtends := by
    rw [List.map_append]
    exact h.toExtends.trans h'.toExtends
  scopes := h'.scopes.trans h.scopes
  body := h'.body.trans h.body
  classSort := h'.classSort.trans h.classSort
  loops := h'.loops.trans h.loops
  locates := by
    intro hq hnodup r hr hnone
    obtain ⟨q, q'⟩ := h.toExtends.quiet h'.toExtends hq
    rw [List.map_append, List.nodup_append] at hnodup
    obtain ⟨hnodup, hnodup', hdisjoint⟩ := hnodup
    rcases List.mem_append.1 hr with hr | hr
    · obtain ⟨hdistance, hready, hthis, hsuper⟩ := h.locates q hnodup r hr hnone
      refine ⟨?_, hready, hthis, hsuper⟩
      rw [h'.distances r.id fun hmem => hdisjoint _ (List.mem_map_of_mem hr) _ hmem rfl, hdistance]
    · have hnone : w₁.distances.get? r.id = none := by
        rw [h.distances r.id fun hmem => hdisjoint _ hmem _ (List.mem_map_of_mem hr) rfl, hnone]
      obtain ⟨hdistance, hready, hthis, hsuper⟩ := h'.locates q' hnodup' r hr hnone
      unfold distance? at hdistance
      unfold innermost? at hready
      rw [h.scopes] at hdistance hready
      rw [h.classSort] at hthis hsuper
      exact ⟨hdistance, hready, hthis, hsuper⟩

theorem perm (h : Finds rs w w') (hp : rs.Perm rs') : Finds rs' w w' where
  toExtends := h.toExtends.perm fun _ hid => (hp.map _).mem_iff.1 hid
  scopes := h.scopes
  body := h.body
  classSort := h.classSort
  loops := h.loops
  locates := fun hq hnodup r hr => h.locates hq ((hp.map _).nodup_iff.2 hnodup) r (hp.mem_iff.2 hr)

end Finds

theorem locate_scopes (id : RefId) (name : Token) (w : Walk) :
    (w.locate id name).scopes = w.scopes := by unfold locate; split <;> rfl

theorem locate_body (id : RefId) (name : Token) (w : Walk) :
    (w.locate id name).body = w.body := by unfold locate; split <;> rfl

theorem locate_classSort (id : RefId) (name : Token) (w : Walk) :
    (w.locate id name).classSort = w.classSort := by unfold locate; split <;> rfl

theorem locate_loops (id : RefId) (name : Token) (w : Walk) :
    (w.locate id name).loops = w.loops := by unfold locate; split <;> rfl

theorem locate_problems (id : RefId) (name : Token) (w : Walk) :
    (w.locate id name).problems = w.problems := by unfold locate; split <;> rfl

/-- A reference that had no distance has afterwards the one of its name. -/
theorem get?_locate {id : RefId} {name : Token} {w : Walk} (h : w.distances.get? id = none) :
    (w.locate id name).distances.get? id = w.distance? name.lexeme := by
  unfold locate
  split
  · next d hd => rw [Distances.get?_record, if_pos rfl, hd]
  · next hd => rw [h, hd]

/-- What a check in front of a reference changes: it may report a problem. -/
structure Checks (w w₁ : Walk) : Prop extends Extends [] w w₁ where
  scopes : w₁.scopes = w.scopes
  body : w₁.body = w.body
  classSort : w₁.classSort = w.classSort
  loops : w₁.loops = w.loops

theorem Checks.refl (w : Walk) : Checks w w := ⟨.refl w, rfl, rfl, rfl, rfl⟩

theorem reportIf_checks (bad : Bool) (token : Token) (problem : StaticProblem) (w : Walk) :
    Checks w (w.reportIf bad token problem) := by
  refine ⟨reportIf_extends bad token problem w, ?_, ?_, ?_, ?_⟩ <;>
    (unfold reportIf; split <;> rfl)

/-- A reference is found if what has to hold of it was checked before. -/
theorem Checks.finds_locate {w w₁ : Walk} {r : Reference} (h : Checks w w₁)
    (hready : w₁.problems = w.problems → r.sort = .var ∨ r.sort = .superclass →
      w.innermost? r.token.lexeme ≠ some false)
    (hthis : w₁.problems = w.problems → r.sort = .this → w.classSort ≠ .noClass)
    (hsuper : w₁.problems = w.problems → r.sort = .super → w.classSort = .derived) :
    Finds [r] w (w₁.locate r.id r.token) where
  toExtends := h.toExtends.trans (locate_extends r.id r.token w₁)
  scopes := (locate_scopes _ _ w₁).trans h.scopes
  body := (locate_body _ _ w₁).trans h.body
  classSort := (locate_classSort _ _ w₁).trans h.classSort
  loops := (locate_loops _ _ w₁).trans h.loops
  locates := by
    intro hq _ r' hr' hnone
    obtain rfl := List.mem_singleton.1 hr'
    rw [locate_problems] at hq
    refine ⟨?_, hready hq, hthis hq, hsuper hq⟩
    rw [get?_locate ((h.distances _ (by simp)).trans hnone), distance?, distance?, h.scopes]

/-- A report leaves a trace. -/
theorem report_ne (token : Token) (problem : StaticProblem) (w : Walk) :
    (w.report token problem).problems ≠ w.problems := fun hq => by
  have := congrArg Array.size hq
  simp [report] at this

end Walk

open Walk

mutual

/-- The walk over an expression finds its references. -/
theorem Expr.resolve_finds (e : Expr) (w : Walk) : Finds e.references w (e.resolve w) := by
  cases e with
  | literal _ => exact .nil w
  | grouping inner => exact inner.resolve_finds w
  | unary _ right => exact right.resolve_finds w
  | binary left _ right =>
    have hleft := left.resolve_finds w
    exact hleft.append (right.resolve_finds _)
  | logical left _ right =>
    have hleft := left.resolve_finds w
    exact hleft.append (right.resolve_finds _)
  | var id name =>
    have hchecks := reportIf_checks (w.innermost? name.lexeme == some false) name
      .readInOwnInitializer w
    refine hchecks.finds_locate (r := ⟨.var, id, name⟩) ?_ (fun _ => nofun) (fun _ => nofun)
    intro hq _ hfalse
    simpa [hfalse] using bad_of_quiet hq
  | assign id name value =>
    have hvalue := value.resolve_finds w
    have htarget : Finds [⟨.assign, id, name⟩] (value.resolve w)
        ((value.resolve w).locate id name) :=
      (Checks.refl _).finds_locate (fun _ => by simp) (fun _ => nofun) (fun _ => nofun)
    exact (hvalue.append htarget).perm List.perm_append_comm
  | call callee _ arguments =>
    have hcallee := callee.resolve_finds w
    exact hcallee.append (resolveExprs_finds arguments _)
  | get object _ => exact object.resolve_finds w
  | set object _ value =>
    have hvalue := value.resolve_finds w
    exact (hvalue.append (object.resolve_finds _)).perm List.perm_append_comm
  | thisRef id keyword =>
    unfold Expr.resolve
    cases hsort : w.classSort with
    | noClass =>
      have hreport := reportIf_extends true keyword .thisOutsideClass w
      exact ⟨hreport.perm nofun, rfl, rfl, rfl, rfl, fun hq => absurd hq (report_ne _ _ w)⟩
    | plain | derived =>
      refine (Checks.refl w).finds_locate (r := ⟨.this, id, keyword⟩) ?_ ?_ (fun _ => nofun)
      · exact fun _ => by simp
      · exact fun _ _ => by simp [hsort]
  | superRef id keyword _ =>
    unfold Expr.resolve
    cases hsort : w.classSort with
    | noClass =>
      have hchecks := reportIf_checks true keyword .superOutsideClass w
      refine hchecks.finds_locate (r := ⟨.super, id, keyword⟩) ?_ (fun _ => nofun) ?_
      · exact fun _ => by simp
      · exact fun hq => absurd hq (report_ne _ _ w)
    | plain =>
      have hchecks := reportIf_checks true keyword .superWithoutSuperclass w
      refine hchecks.finds_locate (r := ⟨.super, id, keyword⟩) ?_ (fun _ => nofun) ?_
      · exact fun _ => by simp
      · exact fun hq => absurd hq (report_ne _ _ w)
    | derived =>
      refine (Checks.refl w).finds_locate (r := ⟨.super, id, keyword⟩) ?_ (fun _ => nofun) ?_
      · exact fun _ => by simp
      · exact fun _ _ => hsort
termination_by structural e

theorem resolveExprs_finds (es : List Expr) (w : Walk) :
    Finds (exprReferences es) w (resolveExprs es w) := by
  cases es with
  | nil => exact .nil w
  | cons e es =>
    have hfirst := e.resolve_finds w
    exact hfirst.append (resolveExprs_finds es _)
termination_by structural es

end

theorem resolveOption_finds (e : Option Expr) (w : Walk) :
    Finds (optionReferences e) w (resolveOption e w) := by
  cases e with
  | none => exact .nil w
  | some e => exact e.resolve_finds w

/-! ## Statements -/

theorem resolveParams_extends (ps : List Token) (w : Walk) :
    Extends [] w (resolveParams ps w) := by
  induction ps generalizing w with
  | nil => exact .refl w
  | cons p ps ih =>
    have hparam := (declare_extends p w).trans (define_extends p _)
    exact hparam.trans (ih _)

/-- The name of a class is declared first. -/
theorem enterClass_extends_declare (name : Token) (superclass : Option Superclass) (w : Walk) :
    Extends (superclass.toList.map Superclass.id) (w.declare name)
      (enterClass name superclass w) := by
  let plain := { (w.declare name).define name with classSort := .plain }
  have hplain : Extends [] (w.declare name) plain :=
    (define_extends name (w.declare name)).within rfl rfl rfl rfl
  cases superclass with
  | none => exact hplain.within rfl rfl (put_problems ..) (put_distances ..)
  | some s =>
    have hchecked := hplain.trans
      (reportIf_extends (s.name.lexeme == name.lexeme) s.name .inheritsFromItself _)
    have hclause := hchecked.trans (locate_extends s.id s.name _)
    exact hclause.within rfl rfl (by simp [enterClass, enterScope, plain])
      (by simp [enterClass, enterScope, plain])

theorem enterClass_extends (name : Token) (superclass : Option Superclass) (w : Walk) :
    Extends (superclass.toList.map Superclass.id) w (enterClass name superclass w) :=
  (declare_extends name w).trans (enterClass_extends_declare name superclass w)

theorem leaveClass_extends (superclass : Option Superclass) (outer : ClassSort) (w : Walk) :
    Extends [] w (leaveClass superclass outer w) := by
  cases superclass <;> exact .of_eq rfl rfl

mutual

/-- The walk over a statement records its own references at most. -/
theorem Stmt.resolve_extends (s : Stmt) (w : Walk) :
    Extends (s.references.map Reference.id) w (s.resolve w) := by
  cases s with
  | expression value | print value => exact (value.resolve_finds w).toExtends
  | var name initializer =>
    have hvalue := (declare_extends name w).trans (resolveOption_finds initializer _).toExtends
    exact (hvalue.trans (define_extends name _)).perm (by simp [Stmt.references])
  | block body =>
    have hbody := resolveStmts_extends body w.enterScope
    exact hbody.within rfl rfl rfl rfl
  | ifElse condition thenBranch elseBranch? =>
    cases elseBranch? with
    | none =>
      have hcondition := (condition.resolve_finds w).toExtends
      have hthen := hcondition.trans (thenBranch.resolve_extends _)
      exact hthen.perm (by simp [Stmt.references])
    | some elseBranch =>
      have hcondition := (condition.resolve_finds w).toExtends
      have hthen := hcondition.trans (thenBranch.resolve_extends _)
      have helse := hthen.trans (elseBranch.resolve_extends _)
      exact helse.perm (by simp [Stmt.references])
  | loop condition body =>
    have hbody := body.resolve_extends
      { condition.resolve w with loops := (condition.resolve w).loops + 1 }
    have h : Extends _ w ((Stmt.loop condition body).resolve w) :=
      (condition.resolve_finds w).toExtends.trans (hbody.within rfl rfl rfl rfl)
    exact h.perm (by simp [Stmt.references])
  | function definition =>
    have hname := (declare_extends definition.name w).trans (define_extends definition.name _)
    have hdefinition := hname.trans (definition.resolve_extends .function _)
    exact hdefinition.perm (by simp [Stmt.references])
  | ret keyword value =>
    have hplace := reportIf_extends (w.body == .topLevel) keyword .returnOutsideFunction w
    have hvalue := fun bad => (hplace.trans (reportIf_extends bad keyword
      .returnValueFromInitializer _)).trans (resolveOption_finds value _).toExtends
    exact (hvalue _).perm (by simp [Stmt.references])
  | brk keyword => exact reportIf_extends _ keyword _ w
  | classDef name superclass methods =>
    have hclause := enterClass_extends name superclass w
    have hmethods := hclause.trans (resolveMethods_extends methods _)
    have hclass := hmethods.trans (leaveClass_extends superclass w.classSort _)
    exact hclass.perm (by simp [Stmt.references, List.map_map, Function.comp_def])
termination_by structural s

theorem resolveStmts_extends (ss : List Stmt) (w : Walk) :
    Extends ((stmtReferences ss).map Reference.id) w (resolveStmts ss w) := by
  cases ss with
  | nil => exact .refl w
  | cons s ss =>
    have hfirst := s.resolve_extends w
    exact (hfirst.trans (resolveStmts_extends ss _)).perm (by simp [stmtReferences])
termination_by structural ss

theorem FunctionDef.resolve_extends (f : FunctionDef) (sort : BodySort) (w : Walk) :
    Extends (f.references.map Reference.id) w (f.resolve sort w) := by
  cases f with
  | mk _ params body =>
    have hparams := resolveParams_extends params { w with body := sort, loops := 0 }.enterScope
    have hbody := hparams.trans (resolveStmts_extends body _)
    exact hbody.within rfl rfl rfl rfl
termination_by structural f

theorem resolveMethods_extends (fs : List FunctionDef) (w : Walk) :
    Extends ((methodReferences fs).map Reference.id) w (resolveMethods fs w) := by
  cases fs with
  | nil => exact .refl w
  | cons f fs =>
    have hfirst := f.resolve_extends (if f.isInitializer then .initializer else .method) w
    exact (hfirst.trans (resolveMethods_extends fs _)).perm (by simp [methodReferences])
termination_by structural fs

end

end Lox
