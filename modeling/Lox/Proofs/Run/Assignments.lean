import Lox.Proofs.Run.Reads

set_option autoImplicit false

/-! # Assignments find their bindings

A name is declared in its scope before its initializer is read, but bound in its frame only when the
initializer has a value. A variable that would be read in between is rejected; one that is assigned
to is not. Everywhere else an assignment with a distance changes the binding that the distance leads
to, and nothing besides; in the initializer of the variable itself it fails, because the name is
not bound yet. -/

namespace Lox

/-! ## Names that are not ready -/

/-- A variable in its own initializer. -/
def Site.InOwnInitializer (site : Site) : Prop :=
  ∃ s ∈ site.scopes.head?, s.names.find? site.reference.token.lexeme = some false

/-- Outside of the innermost scope, all names around a reference are ready. -/
theorem Scopes.ready_sitesAt {scopes : Scopes} (h : Scopes.Ready scopes.tail)
    {references : List Reference} :
    ∀ site ∈ sitesAt scopes references, Scopes.Ready site.scopes.tail := by
  intro site hsite
  obtain ⟨r, -, rfl⟩ := List.mem_map.1 hsite
  exact h

theorem Scopes.Ready.after {scopes : Scopes} (h : scopes.Ready) (s : Stmt) :
    (s.after scopes).Ready := by
  cases s <;> first | exact h.put _ | exact h

theorem Scopes.Ready.call {scopes : Scopes} (h : scopes.Ready) (f : FunctionDef) :
    Scopes.Ready (f.scope :: scopes) :=
  h.cons (FunctionDef.find?_names fun _ _ hfind => by cases hfind)

mutual

theorem Stmt.ready_sites (s : Stmt) {scopes : Scopes} (h : scopes.Ready) :
    ∀ site ∈ s.sites scopes, Scopes.Ready site.scopes.tail := by
  cases s with
  | expression _ | print _ | ret _ _ => exact Scopes.ready_sitesAt h.tail
  | var _ _ =>
    refine Scopes.ready_sitesAt ?_
    rw [Scopes.tail_put]
    exact h.tail
  | block body => exact ready_stmtSites body (h.cons nofun)
  | ifElse _ thenBranch elseBranch? =>
    cases elseBranch? with
    | none =>
      exact List.forall_mem_append.2 ⟨Scopes.ready_sitesAt h.tail, thenBranch.ready_sites h⟩
    | some elseBranch =>
      refine List.forall_mem_append.2 ⟨?_, elseBranch.ready_sites h⟩
      exact List.forall_mem_append.2 ⟨Scopes.ready_sitesAt h.tail, thenBranch.ready_sites h⟩
  | loop _ body => exact List.forall_mem_append.2 ⟨Scopes.ready_sitesAt h.tail, body.ready_sites h⟩
  | function definition => exact definition.ready_sites (h.put _)
  | brk _ => exact nofun
  | classDef _ superclass methods =>
    cases superclass with
    | none => exact ready_methodSites methods (h.put _)
    | some clause =>
      refine List.forall_mem_cons.2 ⟨?_, ready_methodSites methods ((h.put _).parent clause)⟩
      rw [Scopes.tail_put]
      exact h.tail
termination_by structural s

theorem ready_stmtSites (ss : List Stmt) {scopes : Scopes} (h : scopes.Ready) :
    ∀ site ∈ stmtSites scopes ss, Scopes.Ready site.scopes.tail := by
  cases ss with
  | nil => exact nofun
  | cons s ss => exact List.forall_mem_append.2 ⟨s.ready_sites h, ready_stmtSites ss (h.after s)⟩
termination_by structural ss

theorem FunctionDef.ready_sites (f : FunctionDef) {scopes : Scopes} (h : scopes.Ready) :
    ∀ site ∈ f.sites scopes, Scopes.Ready site.scopes.tail := by
  cases f with
  | mk _ _ body => exact ready_stmtSites body (h.call _)
termination_by structural f

theorem ready_methodSites (fs : List FunctionDef) {scopes : Scopes} (h : scopes.Ready) :
    ∀ site ∈ methodSites scopes fs, Scopes.Ready site.scopes.tail := by
  cases fs with
  | nil => exact nofun
  | cons f fs =>
    exact List.forall_mem_append.2 ⟨f.ready_sites (h.receiver f), ready_methodSites fs h⟩
termination_by structural fs

end

theorem Record.ready_sites (record : Record) :
    ∀ site ∈ record.sites, Scopes.Ready site.scopes.tail := by
  have hnil : Scopes.Ready [] := nofun
  refine List.forall_mem_append.2 ⟨fun site hsite => ?_, fun site hsite => ?_⟩
  · obtain ⟨program, -, hsite⟩ := List.mem_flatMap.1 hsite
    exact ready_stmtSites program hnil site hsite
  · obtain ⟨e, -, hsite⟩ := List.mem_flatMap.1 hsite
    exact Scopes.ready_sitesAt hnil.tail site hsite

/-- A distance leads to a name that is ready, unless the variable is in its own initializer. -/
theorem Site.ready_of_distance? {site : Site} (h : Scopes.Ready site.scopes.tail) {d : Nat}
    (hd : site.distance? = some d) (hown : ¬ site.InOwnInitializer) :
    ∃ s, site.scopes[d]? = some s ∧ s.names.find? site.reference.token.lexeme = some true := by
  obtain ⟨⟨s, hs, hsome⟩, -⟩ := Scopes.of_distance? hd
  obtain ⟨ready, hready⟩ := Option.isSome_iff_exists.1 hsome
  refine ⟨s, hs, ?_⟩
  cases ready with
  | true => exact hready
  | false =>
    cases hscopes : site.scopes with
    | nil => rw [hscopes] at hs; cases hs
    | cons innermost outer =>
      rw [hscopes] at hs h
      cases d with
      | zero =>
        cases hs
        exact absurd ⟨s, by rw [hscopes]; rfl, hready⟩ hown
      | succ d => cases h s (List.mem_of_getElem? hs) _ _ hready

/-! ## Assigning -/

theorem assign_of_bound {m : Machine} {id : RefId} {name : Token} {d : Nat} {frame : FrameId}
    (hd : m.distances.get? id = some d) (hframe : m.chain[d]? = some frame)
    (hbound : (m.store.lookup? frame name.lexeme).isSome) (v : Value) :
    Eval.assign id name v m = .ok () { m with store := m.store.bindIn frame name.lexeme v } := by
  have hhome : m.store.homeAt? m.chain d name.lexeme = some frame := by
    simp [Store.homeAt?, hframe, Option.filter, hbound]
  simp only [Eval.assign, Eval.get_bind, hd, hhome]
  rfl

theorem assign_of_unbound {m : Machine} {id : RefId} {name : Token} {d : Nat} {frame : FrameId}
    (hd : m.distances.get? id = some d) (hframe : m.chain[d]? = some frame)
    (hunbound : m.store.lookup? frame name.lexeme = none) (v : Value) :
    Eval.assign id name v m =
      .error (.error (.runtime name (.undefinedVariable name.lexeme))) m := by
  have hhome : m.store.homeAt? m.chain d name.lexeme = none := by
    simp [Store.homeAt?, hframe, Option.filter, hunbound]
  simp only [Eval.assign, Eval.get_bind, hd, hhome]
  rfl

/-- What is true whenever a value is assigned to a variable with a distance. -/
structure AssignsAsWritten (log : List Event) (m : Machine) (site : Site) (v : Value) (d : Nat) :
    Prop where
  /-- The frame that the distance leads to is the one of the scope that has the name. -/
  place : ∃ s frame, site.scopes[d]? = some s ∧
    (s.names.find? site.reference.token.lexeme).isSome ∧
      m.chain[d]? = some frame ∧ OpenedFor log s.scope frame
  /-- The name is bound there, and assigning changes this binding and no other one. -/
  assigns : ¬ site.InOwnInitializer → ∃ frame store, m.chain[d]? = some frame ∧
    (m.store.lookup? frame site.reference.token.lexeme).isSome ∧
      Eval.assign site.reference.id site.reference.token v m = .ok () { m with store } ∧
      ∀ other key, store.lookup? other key =
        if other = frame ∧ key = site.reference.token.lexeme then some v
        else m.store.lookup? other key

/-- **Assignments with a distance find their binding, outside of the initializer of the variable
    itself.** Whatever is done with a session, each assignment to a name with a distance happens at
    one site of a source that was run; the frame as many steps out is there and is the one of the
    scope that has the name; and unless the variable stands in its own initializer, the name is bound
    there, and assigning succeeds and changes this binding alone. -/
theorem assigns_as_written (output : Output) (reading : Nat → Float) (steps : List Step) :
    (Record.of output reading steps).session = (Session.start output reading).after steps ∧
      ∀ r v m, .assigned r v m ∈ (Record.of output reading steps).log →
        ∀ d : Nat, m.distances.get? r.id = some d →
          ∃ site ∈ (Record.of output reading steps).sites, site.reference = r ∧
            (∀ site' ∈ (Record.of output reading steps).sites,
              site'.reference.id = r.id → site' = site) ∧
            AssignsAsWritten (Record.of output reading steps).log m site v d := by
  refine ⟨Record.session_of output reading steps, fun r v m h d hd => ?_⟩
  have hvalid := Record.valid_of output reading steps
  obtain ⟨running, owner, scopes, hsite, hright, hm, -⟩ := hvalid.sound.events _ h
  have hdistance : Site.distance? ⟨r, scopes⟩ = some d := hright.distance.symm.trans hd
  refine ⟨⟨r, scopes⟩, hsite, rfl, fun site' hsite' hid => hvalid.site_eq hsite' hsite hid, ?_, ?_⟩
  · obtain ⟨s, hs, hfound⟩ := (Scopes.of_distance? hdistance).1
    obtain ⟨frame, hframe, hopened, -⟩ := hm.frame hs
    exact ⟨s, frame, hs, hfound, hframe, openedFor hvalid.sound.frames hopened⟩
  · intro hown
    obtain ⟨s, hs, hready⟩ := Site.ready_of_distance? (Record.ready_sites _ _ hsite) hdistance hown
    obtain ⟨frame, hframe, -, hbound⟩ := hm.frame hs
    have hbound : (m.store.lookup? frame r.token.lexeme).isSome := hbound _ hready
    have hexists : frame < m.store.frames.size := Moment.lt_size_of_lookup? (μ := ⟨[], m⟩) hbound
    exact ⟨frame, _, hframe, hbound, assign_of_bound hd hframe hbound v,
      fun other key => Store.lookup?_bindIn _ _ _ _ _ _ hexists⟩

/-- A variable that is assigned to one scope further in. -/
def innerAssignment : List Step := [.run 20 (bytesOf "\x7bvar a;\x7ba=nil;\x7d\x7d")]

/-- The assignment happens, at a distance of one. -/
theorem assigns_as_written_innerAssignment :
    ∃ r v m, .assigned r v m ∈
        (Record.of (.start none false) (fun _ => 0) innerAssignment).log ∧
      m.distances.get? r.id = some 1 ∧ ∃ site, site.reference = r ∧
        AssignsAsWritten (Record.of (.start none false) (fun _ => 0) innerAssignment).log m site v
          1 := by
  have hassigned : ((Record.of (.start none false) (fun _ => 0) innerAssignment).log.any fun e =>
      match e with
      | .assigned r _ m => m.distances.get? r.id == some 1
      | _ => false) = true := by decide +kernel
  obtain ⟨e, he, hassigned⟩ := List.any_eq_true.1 hassigned
  cases e with
  | assigned r v m =>
    have hd : m.distances.get? r.id = some 1 := by simpa using hassigned
    obtain ⟨site, -, hsite, -, hwritten⟩ := (assigns_as_written _ _ _).2 r v m he 1 hd
    exact ⟨r, v, m, he, hd, site, hsite, hwritten⟩
  | _ => cases hassigned

/-- A variable that is assigned to in its own initializer. -/
def ownAssignment : List UInt8 := bytesOf "\x7bvar a=(a=nil);\x7d"

/-- The source is accepted, and the assignment has a distance, but nothing to change. -/
theorem assigned_in_own_initializer :
    ((Session.start (.start none false) fun _ => 0).run 20 ownAssignment).1.status =
        .runtimeError ∧
      ∃ r v m frame, .assigned r v m ∈
          (Record.of (.start none false) (fun _ => 0) [.run 20 ownAssignment]).log ∧
        m.distances.get? r.id = some 0 ∧ m.chain[0]? = some frame ∧
        m.store.lookup? frame r.token.lexeme = none ∧
        Eval.assign r.id r.token v m =
          .error (.error (.runtime r.token (.undefinedVariable r.token.lexeme))) m := by
  refine ⟨by decide +kernel, ?_⟩
  have hassigned : ((Record.of (.start none false) (fun _ => 0) [.run 20 ownAssignment]).log.any
      fun e => match e with
      | .assigned r _ m => m.distances.get? r.id == some 0 &&
          m.chain[0]?.any fun frame => (m.store.lookup? frame r.token.lexeme).isNone
      | _ => false) = true := by decide +kernel
  obtain ⟨e, he, hassigned⟩ := List.any_eq_true.1 hassigned
  cases e with
  | assigned r v m =>
    rw [Bool.and_eq_true, beq_iff_eq, Option.any_eq_true] at hassigned
    obtain ⟨hd, frame, hframe, hunbound⟩ := hassigned
    have hunbound := Option.isNone_iff_eq_none.1 hunbound
    exact ⟨r, v, m, frame, he, hd, hframe, hunbound, assign_of_unbound hd hframe hunbound v⟩
  | _ => cases hassigned

end Lox
