import Lox.Proofs.Scoping.Resolved

set_option autoImplicit false

/-! # Accepted programs

The walk over the tree of a program follows the text from one point to the next. If it adds no
problem, every reference on its way is recorded as its site demands and stands where it may stand,
and the text is fit to be run. -/

namespace Lox

open Walk

variable {w w' : Walk} {Γ : Scopes}

theorem forall_known_of_sitesAt {known : Site → Prop} {rs : List Reference}
    (h : ∀ site ∈ sitesAt Γ rs, known site) : ∀ r ∈ rs, known ⟨r, Γ⟩ :=
  fun _ hr => h _ (List.mem_map_of_mem hr)

theorem Walk.At.receiver {f : FunctionDef} (h : w.At (f.receiver :: Γ)) (g : FunctionDef) :
    w.At (g.receiver :: Γ) := by
  refine ⟨h.scopes, h.classSort.trans ?_, fun s hs p => ?_⟩
  · rcases Γ with _ | ⟨⟨_ | _ | _ | _, _⟩, _⟩ <;> rfl
  · cases hs
    exact nofun

theorem Scopes.Ready.receiver (h : Γ.Ready) (f : FunctionDef) :
    Scopes.Ready (f.receiver :: Γ) := by
  refine h.cons fun name ready hfind => ?_
  simp only [FunctionDef.receiver, Bindings.find?] at hfind
  split at hfind <;> cases hfind
  rfl

theorem Scopes.Ready.parent (h : Γ.Ready) (s : Superclass) :
    Scopes.Ready (s.scope :: Γ) := by
  refine h.cons fun name ready hfind => ?_
  simp only [Superclass.scope, Bindings.find?] at hfind
  split at hfind <;> cases hfind
  rfl

/-! ## Classes -/

/-- The walk is inside the scopes of a class, around its methods. -/
structure Walk.Enters (Γ : Scopes) (w w' : Walk) : Prop where
  here : ∀ f, w'.At (FunctionDef.receiver f :: Γ)
  body : w'.body = w.body
  loops : w'.loops = w.loops

theorem Walk.At.of_receiver (hs : w.scopes = [("this", true)] :: Γ.map OpenScope.names)
    (hc : ∀ f, w.classSort = Scopes.classSort (FunctionDef.receiver f :: Γ)) (f : FunctionDef) :
    w.At (f.receiver :: Γ) :=
  ⟨hs, hc f, fun s hs p => by cases hs; exact nofun⟩

theorem enters_plain {name : Token} (hw : w.At Γ)
    (hq : (enterClass name none w).problems = w.problems) :
    Enters (Γ.put name.lexeme true) w (enterClass name none w) := by
  obtain ⟨q, -⟩ := (declare_extends name w).quiet (enterClass_extends_declare name none w) hq
  have hat := define_at hw q
  refine ⟨.of_receiver ?_ fun f => ?_, ?_, ?_⟩
  · rw [← hat.scopes]
    rfl
  · rw [Scopes.classSort_receiver hat.inside]
    rfl
  · exact (put_body ..).trans ((put_body ..).trans (declare_body q))
  · exact (put_loops ..).trans ((put_loops ..).trans (declare_loops q))

/-- A name that is not the one just declared is found in the same place before. -/
theorem Site.Right.before_put {distances : Distances} {r : Reference} {name : String}
    (h : Site.Right distances ⟨r, Γ.put name true⟩) (hne : r.token.lexeme ≠ name) :
    Site.Right distances ⟨r, Γ.put name false⟩ := by
  have hfind : (Γ.put name true).map (·.names.find? r.token.lexeme) =
      (Γ.put name false).map (·.names.find? r.token.lexeme) := Scopes.find?_put_of_ne hne true false
  have hdistance : Site.distance? ⟨r, Γ.put name true⟩ = Site.distance? ⟨r, Γ.put name false⟩ := by
    have := congrArg (List.findIdx? Option.isSome) hfind
    rwa [List.findIdx?_map, List.findIdx?_map] at this
  refine ⟨h.distance.trans hdistance, fun hsort d s hd hs => ?_, h.spelled, fun hsort hd => ?_⟩
  · have hentry := congrArg (·[d]?) hfind
    simp only [List.getElem?_map] at hentry
    obtain ⟨s', hs', hs''⟩ : ∃ s', (Γ.put name true)[d]? = some s' ∧
        s'.names.find? r.token.lexeme = s.names.find? r.token.lexeme := by
      rw [show (Γ.put name false)[d]? = some s from hs] at hentry
      simpa using hentry
    rw [← hs'']
    exact h.ready hsort d s' (hdistance.trans hd) hs'
  · rw [Scopes.classSort_put, ← Scopes.classSort_put name true]
    exact h.derived hsort (hdistance ▸ hd)

theorem enters_derived {name : Token} {s : Superclass} (hw : w.At Γ) (hready : Γ.Ready)
    (hq : Quiet [⟨.superclass, s.id, s.name⟩] w (enterClass name (some s) w))
    (hs : Chosen s.name.lexeme) :
    Enters (s.scope :: Γ.put name.lexeme true) w (enterClass name (some s) w) ∧
      Site.Right (enterClass name (some s) w).distances
        ⟨⟨.superclass, s.id, s.name⟩, Γ.put name.lexeme false⟩ ∧
      Site.Placed ⟨⟨.superclass, s.id, s.name⟩, Γ.put name.lexeme false⟩ := by
  let r : Reference := ⟨.superclass, s.id, s.name⟩
  have hthis : r.sort ≠ .this := ReferenceSort.noConfusion
  have hsuper : r.sort ≠ .super := ReferenceSort.noConfusion
  let plain := { (w.declare name).define name with classSort := .plain }
  let checked := plain.reportIf (s.name.lexeme == name.lexeme) s.name .inheritsFromItself
  let located := checked.locate s.id s.name
  have hchecks : plain.Checks checked := reportIf_checks _ _ _ plain
  obtain ⟨q, q'⟩ := (declare_extends name w).quiet (enterClass_extends_declare name (some s) w)
    hq.problems
  have hlast : (enterClass name (some s) w).problems = located.problems ∧
      (enterClass name (some s) w).distances = located.distances := by
    simp [enterClass, enterScope, located, checked, plain]
  have hplain : plain.problems = (w.declare name).problems := put_problems ..
  have hq' : checked.problems = plain.problems := by
    rw [← locate_problems s.id s.name checked, show checked.locate s.id s.name = located from rfl,
      ← hlast.1, q', hplain]
  have hne : s.name.lexeme ≠ name.lexeme := by simpa using bad_of_quiet hq'
  have hat := define_at hw q
  have hfinds : Finds [r] plain located := by
    refine hchecks.finds_locate (fun _ _ hfalse => ?_) (fun _ h => absurd h hthis)
      (fun _ h => absurd h hsuper)
    -- all names are ready here, the one of the class included
    rw [show plain.innermost? _ = _ from hat.innermost? s.name.lexeme] at hfalse
    obtain ⟨scope, hscope, hfind⟩ := Option.bind_eq_some_iff.1 hfalse
    cases hready.put name.lexeme scope (List.mem_of_mem_head? hscope) _ _ hfind
  have hfresh : plain.distances.get? r.id = none := by
    rw [show plain.distances = (w.declare name).distances from put_distances ..,
      (declare_extends name w).distances _ (by simp)]
    exact hq.fresh r List.mem_cons_self
  have hl := hfinds.locates ((locate_problems ..).trans hq') (by simp) r List.mem_cons_self hfresh
  have hl : Locates ((w.declare name).define name) located.distances r :=
    ⟨hl.distance, hl.ready, fun h => absurd h hthis, fun h => absurd h hsuper⟩
  obtain ⟨hright, -⟩ := hl.right hat (hready.put _).tail hs
  refine ⟨⟨.of_receiver ?_ fun f => rfl, ?_, ?_⟩, ?_, fun h => absurd h hthis,
    fun h => absurd h hsuper⟩
  · show [("this", true)] :: [("super", true)] :: located.scopes = _
    rw [hfinds.scopes, show plain.scopes = _ from hat.scopes]
    rfl
  · show located.body = w.body
    rw [hfinds.body, show plain.body = _ from put_body .., declare_body q]
  · show located.loops = w.loops
    rw [hfinds.loops, show plain.loops = _ from put_loops .., declare_loops q]
  · rw [hlast.2]
    exact hright.before_put hne

/-! ## The walk -/

mutual

theorem Stmt.resolve_resolves (s : Stmt) {w : Walk} {Γ : Scopes} (hw : w.At Γ) (hready : Γ.Ready)
    (hp : s.Proper) (hq : Quiet s.references w (s.resolve w)) :
    Resolves (s.sites Γ) (s.after Γ) w (s.resolve w) ∧
      ∀ known : Site → Prop, (∀ site ∈ s.sites Γ, known site) →
        s.Checked known Γ (w.body != .topLevel) (w.loops != 0) := by
  cases s with
  | expression value | print value =>
    exact ⟨(value.resolve_finds w).resolves hq hw hready hp, fun _ => forall_known_of_sitesAt⟩
  | var name initializer =>
    obtain ⟨hchosen, hspelled⟩ := hp
    have hfinds := resolveOption_finds initializer (w.declare name)
    obtain ⟨q, hq⟩ := hq.of_silent (declare_extends name w)
      ((hfinds.toExtends.trans (define_extends name _)).perm (by simp [Stmt.references]))
    obtain ⟨-, hq⟩ := hq.of_last hfinds.toExtends (define_extends name _)
    have hat := declare_at hw q
    refine ⟨⟨?_, hready.put name.lexeme, ?_, ?_, ?_⟩,
      fun _ hknown => ⟨hchosen, forall_known_of_sitesAt hknown⟩⟩
    · have hdefined := (hat.of_eq hfinds.scopes hfinds.classSort).put name.lexeme true
      rwa [Scopes.put_put] at hdefined
    · exact (put_body _ _ _).trans (hfinds.body.trans (declare_body q))
    · exact (put_loops _ _ _).trans (hfinds.loops.trans (declare_loops q))
    · intro site hsite
      have hright := hfinds.right hq hat (by rw [Scopes.tail_put]; exact hready.tail) hspelled
      obtain ⟨hright, hplaced⟩ := hright site hsite
      exact ⟨hright.of_get?_eq (by rw [Stmt.resolve, define, put_distances]), hplaced⟩
  | block body =>
    have hat : w.enterScope.At (⟨.block body, []⟩ :: Γ) :=
      ⟨congrArg _ hw.scopes, hw.classSort, fun s hs p => by cases hs; exact nofun⟩
    obtain ⟨h, hknown⟩ := resolveStmts_resolves body hat (hready.cons nofun) hp
      (hq.change rfl rfl rfl)
    exact ⟨⟨h.here.leaveScope rfl hw.inside, hready, h.body, h.loops, h.right⟩, hknown⟩
  | ifElse condition thenBranch elseBranch? =>
    cases elseBranch? with
    | none =>
      obtain ⟨hspelled, hthen, hbranch⟩ := hp
      have hfinds := condition.resolve_finds w
      obtain ⟨q, q', heq⟩ := Quiet.append hq hfinds.toExtends (thenBranch.resolve_extends _)
      have hcondition := hfinds.resolves q hw hready hspelled
      obtain ⟨h, hchecked⟩ := thenBranch.resolve_resolves hcondition.here hready hthen q'
      rw [Stmt.after_of_not_declares hbranch] at h
      refine ⟨hcondition.append h (map_reference_sitesAt _ _) heq, fun known hknown => ?_⟩
      rw [Stmt.sites, List.forall_mem_append] at hknown
      rw [hcondition.body, hcondition.loops] at hchecked
      exact ⟨forall_known_of_sitesAt hknown.1, hchecked known hknown.2, hbranch⟩
    | some elseBranch =>
      obtain ⟨hspelled, ⟨hthen, hthen'⟩, helse, helse'⟩ := hp
      have hfinds := condition.resolve_finds w
      have hextends := thenBranch.resolve_extends (condition.resolve w)
      have hq : Quiet ((condition.references ++ thenBranch.references) ++ elseBranch.references) w
        (elseBranch.resolve (thenBranch.resolve (condition.resolve w))) := hq
      obtain ⟨q, q₃, heq₃⟩ := hq.append
        ((hfinds.toExtends.trans hextends).perm (by simp)) (elseBranch.resolve_extends _)
      obtain ⟨q₁, q₂, heq₂⟩ := q.append hfinds.toExtends hextends
      have hcondition := hfinds.resolves q₁ hw hready hspelled
      obtain ⟨h, hchecked⟩ := thenBranch.resolve_resolves hcondition.here hready hthen q₂
      rw [Stmt.after_of_not_declares hthen'] at h
      have h₂ := hcondition.append h (map_reference_sitesAt _ _) heq₂
      obtain ⟨h₃, hchecked₃⟩ := elseBranch.resolve_resolves h₂.here hready helse q₃
      rw [Stmt.after_of_not_declares helse'] at h₃
      refine ⟨h₂.append h₃ ?_ heq₃, fun known hknown => ?_⟩
      · rw [List.map_append, map_reference_sitesAt, thenBranch.map_reference_sites]
      · rw [Stmt.sites, List.forall_mem_append, List.forall_mem_append] at hknown
        rw [hcondition.body, hcondition.loops] at hchecked
        rw [h₂.body, h₂.loops] at hchecked₃
        exact ⟨forall_known_of_sitesAt hknown.1.1, ⟨hchecked known hknown.1.2, hthen'⟩,
          hchecked₃ known hknown.2, helse'⟩
  | loop condition body =>
    obtain ⟨hspelled, hbody, hbody'⟩ := hp
    have hfinds := condition.resolve_finds w
    let inside : Walk := { condition.resolve w with loops := (condition.resolve w).loops + 1 }
    have hextends : Extends _ (condition.resolve w) ((Stmt.loop condition body).resolve w) :=
      (body.resolve_extends inside).within rfl rfl rfl rfl
    obtain ⟨q, q', heq⟩ := Quiet.append hq hfinds.toExtends hextends
    have hcondition := hfinds.resolves q hw hready hspelled
    have hinside : inside.At Γ := hcondition.here.of_eq rfl rfl
    obtain ⟨h, hchecked⟩ := body.resolve_resolves hinside hready hbody (q'.change rfl rfl rfl)
    rw [Stmt.after_of_not_declares hbody'] at h
    have hloop : Resolves (body.sites Γ) Γ (condition.resolve w)
        ((Stmt.loop condition body).resolve w) := by
      refine ⟨h.here.of_eq rfl rfl, hready, h.body, ?_, h.right⟩
      show (body.resolve inside).loops - 1 = _
      rw [h.loops]
      rfl
    refine ⟨hcondition.append hloop (map_reference_sitesAt _ _) heq, fun known hknown => ?_⟩
    rw [Stmt.sites, List.forall_mem_append] at hknown
    have hchecked := hchecked known hknown.2
    rw [show inside.body = w.body from hcondition.body] at hchecked
    exact ⟨forall_known_of_sitesAt hknown.1, hchecked, hbody'⟩
  | function definition =>
    obtain ⟨hchosen, hp⟩ := hp
    have hname := (declare_extends definition.name w).trans (define_extends definition.name _)
    obtain ⟨q, hq⟩ := hq.of_silent hname (definition.resolve_extends .function _)
    obtain ⟨q, -⟩ := (declare_extends definition.name w).quiet (define_extends definition.name _) q
    have hsort : BodySort.function ≠ .topLevel := nofun
    obtain ⟨h, hchecked⟩ := definition.resolve_resolves hsort (define_at hw q) (hready.put _) hp hq
    exact ⟨⟨h.here, h.ready, h.body.trans ((put_body _ _ _).trans (declare_body q)),
      h.loops.trans ((put_loops _ _ _).trans (declare_loops q)), h.right⟩,
      fun known hknown => ⟨hchosen, hchecked known hknown⟩⟩
  | ret keyword value =>
    let w₁ := w.reportIf (w.body == .topLevel) keyword .returnOutsideFunction
    let w₂ := w₁.reportIf (value.isSome && w₁.body == .initializer) keyword
      .returnValueFromInitializer
    have h₁ : w.Checks w₁ := reportIf_checks _ _ _ w
    have h₂ : w₁.Checks w₂ := reportIf_checks _ _ _ w₁
    have hfinds := resolveOption_finds value w₂
    obtain ⟨q, hq⟩ := hq.of_silent (h₁.toExtends.trans h₂.toExtends) hfinds.toExtends
    obtain ⟨q, -⟩ := h₁.toExtends.quiet h₂.toExtends q
    have hat := (hw.of_eq h₁.scopes h₁.classSort).of_eq h₂.scopes h₂.classSort
    have h := hfinds.resolves hq hat hready hp
    refine ⟨⟨h.here, hready, h.body.trans (h₂.body.trans h₁.body),
      h.loops.trans (h₂.loops.trans h₁.loops), h.right⟩, fun known hknown => ?_⟩
    exact ⟨by rw [bne, bad_of_quiet q, Bool.not_false], forall_known_of_sitesAt hknown⟩
  | brk keyword =>
    have h := reportIf_checks (w.loops == 0) keyword .breakOutsideLoop w
    refine ⟨⟨hw.of_eq h.scopes h.classSort, hready, h.body, h.loops, nofun⟩, fun _ _ => ?_⟩
    show (w.loops != 0) = true
    rw [bne, bad_of_quiet hq.problems, Bool.not_false]
  | classDef name superclass methods =>
    cases superclass with
    | none =>
      obtain ⟨hchosen, hp⟩ := hp
      have hinside := resolveMethods_extends methods (enterClass name none w)
      have hleave := leaveClass_extends none w.classSort
        (resolveMethods methods (enterClass name none w))
      obtain ⟨q, hq⟩ := hq.of_silent (enterClass_extends name none w)
        ((hinside.trans hleave).perm (by simp [Stmt.references]))
      obtain ⟨-, hq⟩ := hq.of_last hinside hleave
      have hentered := enters_plain hw q
      obtain ⟨⟨hat, hbody, hloops, hright⟩, hchecked⟩ :=
        resolveMethods_resolves methods hentered.here (hready.put _) hp hq
      refine ⟨⟨⟨?_, ?_, hw.inside.put _ _⟩, hready.put _, hbody.trans hentered.body,
        hloops.trans hentered.loops, hright⟩, fun known hknown => ⟨hchosen, hchecked known hknown⟩⟩
      · exact congrArg List.tail (hat ⟨name, [], []⟩).scopes
      · rw [Stmt.after, Scopes.classSort_put, ← hw.classSort]
        rfl
    | some s =>
      obtain ⟨hchosen, hspelled, hp⟩ := hp
      have hinside := resolveMethods_extends methods (enterClass name (some s) w)
      have hleave := leaveClass_extends (some s) w.classSort
        (resolveMethods methods (enterClass name (some s) w))
      have hq : Quiet ([⟨.superclass, s.id, s.name⟩] ++ methodReferences methods) w _ := hq
      obtain ⟨q, hq, heq⟩ := hq.append (enterClass_extends name (some s) w)
        ((hinside.trans hleave).perm (by simp))
      obtain ⟨-, hq⟩ := hq.of_last hinside hleave
      obtain ⟨hentered, hsite⟩ := enters_derived hw hready q hspelled
      obtain ⟨⟨hat, hbody, hloops, hright⟩, hchecked⟩ :=
        resolveMethods_resolves methods hentered.here ((hready.put _).parent s) hp hq
      refine ⟨⟨⟨?_, ?_, hw.inside.put _ _⟩, hready.put _, hbody.trans hentered.body,
        hloops.trans hentered.loops, ?_⟩, fun known hknown => ?_⟩
      · exact congrArg (List.tail ∘ List.tail) (hat ⟨name, [], []⟩).scopes
      · rw [Stmt.after, Scopes.classSort_put, ← hw.classSort]
        rfl
      · intro site hmem
        rcases List.mem_cons.1 hmem with rfl | hmem
        · exact ⟨hsite.1.of_get?_eq (heq _ List.mem_cons_self), hsite.2⟩
        · exact hright site hmem
      · rw [Stmt.sites, List.forall_mem_cons] at hknown
        exact ⟨hchosen, hknown.1, hchecked known hknown.2⟩
termination_by structural s

theorem resolveStmts_resolves (ss : List Stmt) {w : Walk} {Γ : Scopes} (hw : w.At Γ)
    (hready : Γ.Ready) (hp : ProperStmts ss)
    (hq : Quiet (stmtReferences ss) w (resolveStmts ss w)) :
    Resolves (stmtSites Γ ss) (ss.foldl Stmt.after Γ) w (resolveStmts ss w) ∧
      ∀ known : Site → Prop, (∀ site ∈ stmtSites Γ ss, known site) →
        CheckedStmts known Γ (w.body != .topLevel) (w.loops != 0) ss := by
  cases ss with
  | nil => exact ⟨⟨hw, hready, rfl, rfl, nofun⟩, fun _ _ => trivial⟩
  | cons s ss =>
    obtain ⟨hp, hps⟩ := hp
    obtain ⟨q, q', heq⟩ := Quiet.append hq (s.resolve_extends w) (resolveStmts_extends ss _)
    obtain ⟨h, hchecked⟩ := s.resolve_resolves hw hready hp q
    obtain ⟨hs, hchecked'⟩ := resolveStmts_resolves ss h.here h.ready hps q'
    refine ⟨h.append hs (s.map_reference_sites Γ) heq, fun known hknown => ?_⟩
    rw [stmtSites, List.forall_mem_append] at hknown
    rw [h.body, h.loops] at hchecked'
    exact ⟨hchecked known hknown.1, hchecked' known hknown.2⟩
termination_by structural ss

theorem FunctionDef.resolve_resolves (f : FunctionDef) {sort : BodySort} {w : Walk} {Γ : Scopes}
    (hsort : sort ≠ .topLevel) (hw : w.At Γ) (hready : Γ.Ready) (hp : f.Proper)
    (hq : Quiet f.references w (f.resolve sort w)) :
    Resolves (f.sites Γ) Γ w (f.resolve sort w) ∧
      ∀ known : Site → Prop, (∀ site ∈ f.sites Γ, known site) → f.Checked known Γ := by
  cases f with
  | mk name params body =>
    obtain ⟨hparams, hp⟩ := hp
    let entered : Walk := { w with body := sort, loops := 0 }.enterScope
    have hat : entered.At (⟨.call ⟨name, params, body⟩, []⟩ :: Γ) :=
      ⟨congrArg _ hw.scopes, hw.classSort, fun s hs p => by cases hs; exact nofun⟩
    have hq : Quiet (stmtReferences body) entered
      (resolveStmts body (resolveParams params entered)) := hq.change rfl rfl rfl
    obtain ⟨q, hq⟩ := hq.of_silent (resolveParams_extends params entered)
      (resolveStmts_extends body _)
    obtain ⟨hat, hbody, hloops⟩ := resolveParams_at hat q
    have hnames : Scopes.Ready (FunctionDef.scope ⟨name, params, body⟩ :: Γ) :=
      hready.cons (FunctionDef.find?_names nofun)
    obtain ⟨h, hchecked⟩ := resolveStmts_resolves body hat hnames hp hq
    refine ⟨⟨(h.here.leaveScope rfl hw.inside).of_eq rfl rfl, hready, rfl, rfl, h.right⟩,
      fun known hknown => ⟨hparams, ?_⟩⟩
    have hchecked := hchecked known hknown
    rw [hbody, hloops] at hchecked
    rwa [show (entered.body != .topLevel) = true from bne_iff_ne.2 hsort] at hchecked
termination_by structural f

theorem resolveMethods_resolves (fs : List FunctionDef) {w : Walk} {Γ : Scopes}
    (hw : ∀ f, w.At (FunctionDef.receiver f :: Γ)) (hready : Γ.Ready) (hp : ProperMethods fs)
    (hq : Quiet (methodReferences fs) w (resolveMethods fs w)) :
    ((∀ f, (resolveMethods fs w).At (FunctionDef.receiver f :: Γ)) ∧
      (resolveMethods fs w).body = w.body ∧ (resolveMethods fs w).loops = w.loops ∧
      ∀ site ∈ methodSites Γ fs, site.Right (resolveMethods fs w).distances ∧ site.Placed) ∧
    ∀ known : Site → Prop, (∀ site ∈ methodSites Γ fs, known site) →
      CheckedMethods known Γ fs := by
  cases fs with
  | nil => exact ⟨⟨hw, rfl, rfl, nofun⟩, fun _ _ => trivial⟩
  | cons f fs =>
    obtain ⟨hp, hps⟩ := hp
    obtain ⟨q, q', heq⟩ := Quiet.append hq (f.resolve_extends _ w) (resolveMethods_extends fs _)
    have hsort : (if f.isInitializer then BodySort.initializer else .method) ≠ .topLevel := by
      split <;> exact nofun
    obtain ⟨h, hchecked⟩ := f.resolve_resolves hsort (hw f) (hready.receiver f) hp q
    obtain ⟨⟨hat, hbody, hloops, hright⟩, hchecked'⟩ :=
      resolveMethods_resolves fs h.here.receiver hready hps q'
    refine ⟨⟨hat, hbody.trans h.body, hloops.trans h.loops, fun site hsite => ?_⟩,
      fun known hknown => ?_⟩
    · rcases List.mem_append.1 hsite with hsite | hsite
      · obtain ⟨hright, hplaced⟩ := h.right site hsite
        have hmem := mem_references_of_mem (f.map_reference_sites _) hsite
        exact ⟨hright.of_get?_eq (heq _ hmem), hplaced⟩
      · exact hright site hsite
    · rw [methodSites, List.forall_mem_append] at hknown
      exact ⟨hchecked known hknown.1, hchecked' known hknown.2⟩
termination_by structural fs

end

/-! ## Programs -/

variable {program : List Stmt} {distances : Distances}

theorem get?_resolveProgram (program : List Stmt) (distances : Distances) {id : RefId}
    (h : id ∉ (stmtReferences program).map Reference.id) :
    (resolveProgram program distances).distances.get? id = distances.get? id :=
  (resolveStmts_extends program (.start distances)).distances id h

/-- A program without a static error has each reference recorded as its site demands, and is fit to
    be run. -/
theorem right_and_checked_of_resolveProgram (hp : ProperStmts program)
    (hnodup : ((stmtReferences program).map Reference.id).Nodup)
    (hfresh : ∀ r ∈ stmtReferences program, distances.get? r.id = none)
    (h : (resolveProgram program distances).errors = []) :
    (∀ site ∈ stmtSites [] program,
        site.Right (resolveProgram program distances).distances ∧ site.Placed) ∧
      ∀ known : Site → Prop, (∀ site ∈ stmtSites [] program, known site) →
        CheckedStmts known [] false false program := by
  have hproblems : (resolveStmts program (.start distances)).problems = #[] := by
    simpa [resolveProgram] using h
  have hstart : (Walk.start distances).At [] := ⟨rfl, rfl, nofun⟩
  obtain ⟨hresolves, hchecked⟩ :=
    resolveStmts_resolves program hstart nofun hp ⟨hproblems, hnodup, hfresh⟩
  exact ⟨hresolves.right, hchecked⟩

end Lox
