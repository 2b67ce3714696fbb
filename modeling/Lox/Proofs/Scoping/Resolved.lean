import Lox.Proofs.Scoping.Walk

set_option autoImplicit false

/-! # What the walk finds out

A walk that starts where the text says some scopes are open (`Walk.At`) and adds no problem ends
where the text says, has recorded every reference as its site demands, and has seen that the text is
fit to be run (`Stmt.Checked`). -/

namespace Lox

/-! ## Sites and references -/

@[simp] theorem map_reference_sitesAt (scopes : Scopes) (rs : List Reference) :
    (sitesAt scopes rs).map Site.reference = rs := by
  rw [sitesAt, List.map_map]
  exact List.map_id rs

mutual

/-- The sites of a statement are those of its references. -/
theorem Stmt.map_reference_sites (s : Stmt) (scopes : Scopes) :
    (s.sites scopes).map Site.reference = s.references := by
  cases s with
  | expression _ | print _ | var _ _ | ret _ _ => exact map_reference_sitesAt _ _
  | block body => exact map_reference_stmtSites body _
  | ifElse _ thenBranch elseBranch? =>
    cases elseBranch? with
    | none =>
      simp [Stmt.sites, Stmt.references, thenBranch.map_reference_sites scopes]
    | some elseBranch =>
      simp [Stmt.sites, Stmt.references, thenBranch.map_reference_sites scopes,
        elseBranch.map_reference_sites scopes]
  | loop _ body =>
    simp [Stmt.sites, Stmt.references, body.map_reference_sites scopes]
  | function definition => exact definition.map_reference_sites _
  | brk _ => rfl
  | classDef _ superclass methods =>
    cases superclass with
    | none => exact map_reference_methodSites methods _
    | some _ => exact congrArg _ (map_reference_methodSites methods _)
termination_by structural s

theorem map_reference_stmtSites (ss : List Stmt) (scopes : Scopes) :
    (stmtSites scopes ss).map Site.reference = stmtReferences ss := by
  cases ss with
  | nil => rfl
  | cons s ss =>
    rw [stmtSites, List.map_append, s.map_reference_sites, map_reference_stmtSites ss,
      stmtReferences]
termination_by structural ss

theorem FunctionDef.map_reference_sites (f : FunctionDef) (scopes : Scopes) :
    (f.sites scopes).map Site.reference = f.references := by
  cases f with
  | mk _ _ body => exact map_reference_stmtSites body _
termination_by structural f

theorem map_reference_methodSites (fs : List FunctionDef) (scopes : Scopes) :
    (methodSites scopes fs).map Site.reference = methodReferences fs := by
  cases fs with
  | nil => rfl
  | cons f fs =>
    rw [methodSites, List.map_append, f.map_reference_sites, map_reference_methodSites fs,
      methodReferences]
termination_by structural fs

end

theorem mem_references_of_mem {sites : List Site} {rs : List Reference} {site : Site}
    (h : sites.map Site.reference = rs) (hsite : site ∈ sites) : site.reference ∈ rs :=
  h ▸ List.mem_map_of_mem hsite

/-! ## Scopes -/

namespace Scopes

/-- All names have their initializers behind them. -/
def Ready (scopes : Scopes) : Prop :=
  ∀ s ∈ scopes, ∀ name ready, s.names.find? name = some ready → ready = true

theorem Ready.tail {scopes : Scopes} (h : scopes.Ready) : Scopes.Ready scopes.tail :=
  fun s hs => h s (List.mem_of_mem_tail hs)

theorem Ready.cons {s : OpenScope} {scopes : Scopes}
    (hs : ∀ name ready, s.names.find? name = some ready → ready = true) (h : scopes.Ready) :
    Scopes.Ready (s :: scopes) := by
  intro s' hs'
  rcases List.mem_cons.1 hs' with rfl | hs'
  · exact hs
  · exact h s' hs'

theorem Ready.put {scopes : Scopes} (h : scopes.Ready) (name : String) :
    (scopes.put name true).Ready := by
  cases scopes with
  | nil => exact h
  | cons s outer =>
    refine .cons (fun other ready hfind => ?_) h.tail
    rw [Bindings.find?_bind] at hfind
    split at hfind
    · exact (Option.some.inj hfind).symm
    · exact h s List.mem_cons_self other ready hfind

/-- Outside a name that is put into a scope, nothing is found otherwise. -/
theorem find?_put_of_ne {scopes : Scopes} {name other : String} (h : other ≠ name) (a b : Bool) :
    (scopes.put name a).map (·.names.find? other) =
      (scopes.put name b).map (·.names.find? other) := by
  cases scopes with
  | nil => rfl
  | cons s outer => simp [put, Bindings.find?_bind, h]

end Scopes

theorem FunctionDef.find?_names {ps : List Token} :
    ∀ {names : DeclaredNames}, (∀ name ready, names.find? name = some ready → ready = true) →
      ∀ name ready, (ps.foldl (fun names p => names.bind p.lexeme true) names).find? name =
        some ready → ready = true := by
  induction ps with
  | nil => exact id
  | cons p ps ih =>
    intro names h
    refine ih fun name ready hfind => ?_
    rw [Bindings.find?_bind] at hfind
    split at hfind
    · exact (Option.some.inj hfind).symm
    · exact h name ready hfind

namespace Walk

variable {w w₁ w' : Walk} {Γ Γ₁ Γ' : Scopes} {rs rs' : List Reference}

/-! ## Where the walk stands -/

/-- The walk stands where the text has some scopes open. -/
structure At (w : Walk) (Γ : Scopes) : Prop where
  scopes : w.scopes = Γ.map OpenScope.names
  classSort : w.classSort = Γ.classSort
  inside : Γ.Inside

theorem At.distance? (h : w.At Γ) (name : String) : w.distance? name = Γ.distance? name := by
  rw [Walk.distance?, h.scopes, List.findIdx?_map]
  rfl

theorem At.innermost? (h : w.At Γ) (name : String) :
    w.innermost? name = Γ.head?.bind (·.names.find? name) := by
  rw [Walk.innermost?, h.scopes]
  cases Γ <;> rfl

theorem At.put (h : w.At Γ) (name : String) (ready : Bool) :
    (w.put name ready).At (Γ.put name ready) := by
  refine ⟨?_, ?_, h.inside.put name ready⟩
  · have hscopes := h.scopes
    unfold Walk.put
    cases Γ with
    | nil => rw [hscopes]; exact hscopes
    | cons s outer => rw [hscopes]; rfl
  · rw [put_classSort, Scopes.classSort_put, h.classSort]

/-- The distances do not tell where the walk stands. -/
theorem At.of_eq (h : w.At Γ) (hs : w'.scopes = w.scopes) (hc : w'.classSort = w.classSort) :
    w'.At Γ :=
  ⟨hs.trans h.scopes, hc.trans h.classSort, h.inside⟩

/-- What is recorded of a reference is what its site demands. -/
theorem Locates.right {distances : Distances} {r : Reference} (h : Locates w distances r)
    (hw : w.At Γ) (hready : Scopes.Ready Γ.tail) (hr : r.Spelled) :
    Site.Right distances ⟨r, Γ⟩ ∧ Site.Placed ⟨r, Γ⟩ := by
  refine ⟨⟨?_, ?_, hr, fun hsort _ => hw.classSort ▸ h.super hsort⟩,
    ⟨fun hsort => hw.classSort ▸ h.this hsort, fun hsort => hw.classSort ▸ h.super hsort⟩⟩
  · rw [h.distance, hw.distance?]
    rfl
  · intro hsort d s hd hs
    obtain ⟨hlt, hfound, -⟩ := List.findIdx?_eq_some_iff_getElem.1 hd
    obtain ⟨ready, hfind⟩ := Option.isSome_iff_exists.1 hfound
    have hs' : Γ[d] = s := (List.getElem?_eq_some_iff.1 hs).2
    rw [hs'] at hfind
    show s.names.find? r.token.lexeme = some true
    rw [hfind]
    -- only the innermost scope may have a name that is not ready, and not the one that is read
    cases d with
    | zero =>
      have hinnermost := h.ready hsort
      cases Γ with
      | nil => exact nomatch hs
      | cons s' outer =>
        cases hs
        rw [hw.innermost?] at hinnermost
        cases ready with
        | true => rfl
        | false => exact absurd hfind hinnermost
    | succ d =>
      have hmem : s ∈ Γ.tail := by
        cases Γ with
        | nil => exact nomatch hs
        | cons s' outer => exact List.mem_of_getElem? hs
      rw [hready s hmem _ _ hfind]

/-! ## Walks without a problem -/

/-- No problem is added, and the references are distinct and have no distances yet. -/
structure Quiet (references : List Reference) (w w' : Walk) : Prop where
  problems : w'.problems = w.problems
  nodup : (references.map Reference.id).Nodup
  fresh : ∀ r ∈ references, w.distances.get? r.id = none

/-- A walk without a problem has none on its parts, and the second part leaves alone what was
    recorded on the first. -/
theorem Quiet.append (hq : Quiet (rs ++ rs') w w') (h : Extends (rs.map Reference.id) w w₁)
    (h' : Extends (rs'.map Reference.id) w₁ w') :
    Quiet rs w w₁ ∧ Quiet rs' w₁ w' ∧
      ∀ r ∈ rs, w'.distances.get? r.id = w₁.distances.get? r.id := by
  obtain ⟨q, q'⟩ := h.quiet h' hq.problems
  have hnodup := hq.nodup
  rw [List.map_append, List.nodup_append] at hnodup
  obtain ⟨hnodup, hnodup', hdisjoint⟩ := hnodup
  refine ⟨⟨q, hnodup, fun r hr => hq.fresh r (List.mem_append_left _ hr)⟩,
    ⟨q', hnodup', fun r hr => ?_⟩, fun r hr => ?_⟩
  · rw [h.distances r.id fun hmem => hdisjoint _ hmem _ (List.mem_map_of_mem hr) rfl]
    exact hq.fresh r (List.mem_append_right _ hr)
  · exact h'.distances r.id fun hmem => hdisjoint _ (List.mem_map_of_mem hr) _ hmem rfl

/-- What a walk without a problem achieves for the sites on its way. -/
structure Resolves (sites : List Site) (Γ' : Scopes) (w w' : Walk) : Prop where
  here : w'.At Γ'
  ready : Γ'.Ready
  body : w'.body = w.body
  loops : w'.loops = w.loops
  right : ∀ site ∈ sites, site.Right w'.distances ∧ site.Placed

theorem Resolves.append {sites sites' : List Site} (h : Resolves sites Γ₁ w w₁)
    (h' : Resolves sites' Γ' w₁ w')
    (hrs : sites.map Site.reference = rs)
    (heq : ∀ r ∈ rs, w'.distances.get? r.id = w₁.distances.get? r.id) :
    Resolves (sites ++ sites') Γ' w w' where
  here := h'.here
  ready := h'.ready
  body := h'.body.trans h.body
  loops := h'.loops.trans h.loops
  right := by
    intro site hsite
    rcases List.mem_append.1 hsite with hsite | hsite
    · obtain ⟨hright, hplaced⟩ := h.right site hsite
      exact ⟨hright.of_get?_eq (heq _ (mem_references_of_mem hrs hsite)), hplaced⟩
    · exact h'.right site hsite

/-- The sites of an expression. Only the innermost scope may have names that are not ready. -/
theorem Finds.right (h : Finds rs w w') (hq : Quiet rs w w') (hw : w.At Γ)
    (hready : Scopes.Ready Γ.tail) (hrs : ∀ r ∈ rs, r.Spelled) :
    ∀ site ∈ sitesAt Γ rs, site.Right w'.distances ∧ site.Placed := by
  intro site hsite
  obtain ⟨r, hr, rfl⟩ := List.mem_map.1 hsite
  exact (h.locates hq.problems hq.nodup r hr (hq.fresh r hr)).right hw hready (hrs r hr)

theorem Finds.resolves (h : Finds rs w w') (hq : Quiet rs w w') (hw : w.At Γ) (hready : Γ.Ready)
    (hrs : ∀ r ∈ rs, r.Spelled) : Resolves (sitesAt Γ rs) Γ w w' where
  here := hw.of_eq h.scopes h.classSort
  ready := hready
  body := h.body
  loops := h.loops
  right := h.right hq hw hready.tail hrs

/-! ## Declarations -/

theorem declare_at {name : Token} (hw : w.At Γ) (hq : (w.declare name).problems = w.problems) :
    (w.declare name).At (Γ.put name.lexeme false) := by
  rw [declare_of_quiet hq]
  exact hw.put name.lexeme false

/-- A name that is declared and ready at once. -/
theorem define_at {name : Token} (hw : w.At Γ) (hq : (w.declare name).problems = w.problems) :
    ((w.declare name).define name).At (Γ.put name.lexeme true) := by
  rw [declare_of_quiet hq, define, put_put]
  exact hw.put name.lexeme true

theorem declare_body {name : Token} (hq : (w.declare name).problems = w.problems) :
    (w.declare name).body = w.body := by rw [declare_of_quiet hq, put_body]

theorem declare_loops {name : Token} (hq : (w.declare name).problems = w.problems) :
    (w.declare name).loops = w.loops := by rw [declare_of_quiet hq, put_loops]

/-- The names of the parameters are in the scope of the function. -/
theorem resolveParams_at {ps : List Token} {s : OpenScope} (hw : w.At (s :: Γ))
    (hq : (resolveParams ps w).problems = w.problems) :
    (resolveParams ps w).At
        ({ s with names := ps.foldl (fun names p => names.bind p.lexeme true) s.names } :: Γ) ∧
      (resolveParams ps w).body = w.body ∧ (resolveParams ps w).loops = w.loops := by
  induction ps generalizing w s with
  | nil => exact ⟨hw, rfl, rfl⟩
  | cons p ps ih =>
    obtain ⟨q, q'⟩ := ((declare_extends p w).trans (define_extends p _)).quiet
      (resolveParams_extends ps _) hq
    obtain ⟨q, -⟩ := (declare_extends p w).quiet (define_extends p _) q
    obtain ⟨hat, hbody, hloops⟩ := ih (define_at hw q) q'
    refine ⟨hat, hbody.trans ?_, hloops.trans ?_⟩
    · rw [define, put_body, declare_body q]
    · rw [define, put_loops, declare_loops q]

/-- A step that records nothing and adds no problem in front of a walk. -/
theorem Quiet.of_silent (hq : Quiet rs w w') (h : Extends [] w w₁)
    (h' : Extends (rs.map Reference.id) w₁ w') :
    w₁.problems = w.problems ∧ Quiet rs w₁ w' := by
  have hq : Quiet ([] ++ rs) w w' := hq
  obtain ⟨q, q', -⟩ := hq.append h h'
  exact ⟨q.problems, q'⟩

theorem Quiet.of_last (hq : Quiet rs w w') (h : Extends (rs.map Reference.id) w w₁)
    (h' : Extends [] w₁ w') : w'.problems = w₁.problems ∧ Quiet rs w w₁ := by
  rw [← List.append_nil rs] at hq
  obtain ⟨q, q', -⟩ := hq.append h h'
  exact ⟨q'.problems, q⟩

/-- What is set besides problems and distances does not matter to what is found. -/
theorem Quiet.change {w₂ w₃ : Walk} (hq : Quiet rs w w') (hp : w₂.problems = w.problems)
    (hd : w₂.distances = w.distances) (hp' : w₃.problems = w'.problems) : Quiet rs w₂ w₃ :=
  ⟨hp'.trans (hq.problems.trans hp.symm), hq.nodup, fun r hr => by rw [hd, hq.fresh r hr]⟩

end Walk

theorem Scopes.put_put (name : String) (a b : Bool) (scopes : Scopes) :
    (scopes.put name a).put name b = scopes.put name b := by
  cases scopes <;> simp [put, Bindings.bind_bind]

theorem Stmt.tail_after (s : Stmt) (scopes : Scopes) : (s.after scopes).tail = scopes.tail := by
  cases s <;> simp [Stmt.after]

theorem Stmt.classSort_after (s : Stmt) (scopes : Scopes) :
    (s.after scopes).classSort = scopes.classSort := by
  cases s <;> simp [Stmt.after]

theorem tail_foldl_after (ss : List Stmt) (scopes : Scopes) :
    (ss.foldl Stmt.after scopes).tail = scopes.tail := by
  induction ss generalizing scopes with
  | nil => rfl
  | cons s ss ih => rw [List.foldl_cons, ih, Stmt.tail_after]

theorem classSort_foldl_after (ss : List Stmt) (scopes : Scopes) :
    (ss.foldl Stmt.after scopes).classSort = scopes.classSort := by
  induction ss generalizing scopes with
  | nil => rfl
  | cons s ss ih => rw [List.foldl_cons, ih, Stmt.classSort_after]

open Walk

/-- A scope is left as it was entered. -/
theorem Walk.At.leaveScope {w : Walk} {s : OpenScope} {Γ : Scopes} {ss : List Stmt}
    (h : w.At (ss.foldl Stmt.after (s :: Γ))) (hsort : Scopes.classSort (s :: Γ) = Γ.classSort)
    (hinside : Γ.Inside) : w.leaveScope.At Γ := by
  refine ⟨?_, ?_, hinside⟩
  · show w.scopes.tail = _
    rw [h.scopes, ← List.map_tail, tail_foldl_after]
    rfl
  · show w.classSort = _
    rw [h.classSort, classSort_foldl_after, hsort]

end Lox
