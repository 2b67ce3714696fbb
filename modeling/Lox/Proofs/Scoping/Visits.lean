import Lox.Proofs.Scoping.Walk

set_option autoImplicit false

/-! # The references that the walk comes by

The walk over a tree comes by each of its references once (`stmtVisits_perm`), and each time it is in
a state of its own. In this state it looks for the name, and what it finds is all that it records on
its way (`resolveStmts_distances`). So where no two references have the same identity, what is known
of a reference afterwards was found where the reference stands (`get?_noteAll_of_mem`). -/

namespace Lox

/-! ## Visits -/

/-- A reference, and the state in which the walk comes by it. -/
structure Visit where
  reference : Reference
  walk : Walk

/-- How far out the name is declared, seen from where the reference stands. A `this` outside of all
    classes is not looked for. -/
def Visit.distance? (v : Visit) : Option Nat :=
  if v.reference.sort = .this ∧ v.walk.classSort = .noClass then none
  else v.walk.distance? v.reference.token.lexeme

mutual

/-- The visits of the walk over an expression, in their order. -/
def Expr.visits : Expr → Walk → List Visit
  | .literal _, _ => []
  | .grouping inner, w => inner.visits w
  | .unary _ right, w => right.visits w
  | .binary left _ right, w => left.visits w ++ right.visits (left.resolve w)
  | .logical left _ right, w => left.visits w ++ right.visits (left.resolve w)
  | .var id name, w => [⟨⟨.var, id, name⟩, w⟩]
  | .assign id name value, w => value.visits w ++ [⟨⟨.assign, id, name⟩, value.resolve w⟩]
  | .call callee _ arguments, w => callee.visits w ++ exprVisits arguments (callee.resolve w)
  | .get object _, w => object.visits w
  | .set object _ value, w => value.visits w ++ object.visits (value.resolve w)
  | .thisRef id keyword, w => [⟨⟨.this, id, keyword⟩, w⟩]
  | .superRef id keyword _, w => [⟨⟨.super, id, keyword⟩, w⟩]

def exprVisits : List Expr → Walk → List Visit
  | [], _ => []
  | e :: es, w => e.visits w ++ exprVisits es (e.resolve w)

end

def optionVisits : Option Expr → Walk → List Visit
  | none, _ => []
  | some e, w => e.visits w

mutual

/-- The visits of the walk over a statement, in their order. -/
def Stmt.visits : Stmt → Walk → List Visit
  | .expression value, w => value.visits w
  | .print value, w => value.visits w
  | .var name initializer, w => optionVisits initializer (w.declare name)
  | .block body, w => stmtVisits body w.enterScope
  | .ifElse condition thenBranch none, w =>
    condition.visits w ++ thenBranch.visits (condition.resolve w)
  | .ifElse condition thenBranch (some elseBranch), w =>
    let w₁ := condition.resolve w
    condition.visits w ++ thenBranch.visits w₁ ++ elseBranch.visits (thenBranch.resolve w₁)
  | .loop condition body, w =>
    let w₁ := condition.resolve w
    condition.visits w ++ body.visits { w₁ with loops := w₁.loops + 1 }
  | .function definition, w =>
    definition.visits .function ((w.declare definition.name).define definition.name)
  | .ret keyword value, w =>
    let w := w.reportIf (w.body == .topLevel) keyword .returnOutsideFunction
    optionVisits value
      (w.reportIf (value.isSome && w.body == .initializer) keyword .returnValueFromInitializer)
  | .brk _, _ => []
  | .classDef name superclass methods, w =>
    superclass.toList.map (fun s =>
        ⟨⟨.superclass, s.id, s.name⟩, { (w.declare name).define name with classSort := .plain }⟩) ++
      methodVisits methods (enterClass name superclass w)

def stmtVisits : List Stmt → Walk → List Visit
  | [], _ => []
  | s :: ss, w => s.visits w ++ stmtVisits ss (s.resolve w)

def FunctionDef.visits : FunctionDef → BodySort → Walk → List Visit
  | { params, body, .. }, sort, w =>
    stmtVisits body (resolveParams params { w with body := sort, loops := 0 }.enterScope)

def methodVisits : List FunctionDef → Walk → List Visit
  | [], _ => []
  | f :: fs, w =>
    let sort := if f.isInitializer then .initializer else .method
    f.visits sort w ++ methodVisits fs (f.resolve sort w)

end

/-! ## Each reference is visited once -/

theorem map_reference_append (vs vs' : List Visit) {rs rs' : List Reference}
    (h : (vs.map Visit.reference).Perm rs) (h' : (vs'.map Visit.reference).Perm rs') :
    ((vs ++ vs').map Visit.reference).Perm (rs ++ rs') := by
  rw [List.map_append]
  exact h.append h'

mutual

theorem Expr.visits_perm (e : Expr) (w : Walk) :
    ((e.visits w).map Visit.reference).Perm e.references := by
  cases e with
  | literal _ => exact .nil
  | grouping inner => exact inner.visits_perm w
  | unary _ right => exact right.visits_perm w
  | binary left _ right | logical left _ right =>
    exact map_reference_append _ _ (left.visits_perm w) (right.visits_perm _)
  | var _ _ | thisRef _ _ | superRef _ _ _ => exact .refl _
  | assign _ _ value =>
    have hvalue := value.visits_perm w
    exact (map_reference_append _ _ hvalue (.refl _)).trans List.perm_append_comm
  | call callee _ arguments =>
    exact map_reference_append _ _ (callee.visits_perm w) (exprVisits_perm arguments _)
  | get object _ => exact object.visits_perm w
  | set object _ value =>
    have hvalue := value.visits_perm w
    exact (map_reference_append _ _ hvalue (object.visits_perm _)).trans List.perm_append_comm
termination_by structural e

theorem exprVisits_perm (es : List Expr) (w : Walk) :
    ((exprVisits es w).map Visit.reference).Perm (exprReferences es) := by
  cases es with
  | nil => exact .nil
  | cons e es => exact map_reference_append _ _ (e.visits_perm w) (exprVisits_perm es _)
termination_by structural es

end

theorem optionVisits_perm (e : Option Expr) (w : Walk) :
    ((optionVisits e w).map Visit.reference).Perm (optionReferences e) := by
  cases e with
  | none => exact .nil
  | some e => exact e.visits_perm w

mutual

theorem Stmt.visits_perm (s : Stmt) (w : Walk) :
    ((s.visits w).map Visit.reference).Perm s.references := by
  cases s with
  | expression value | print value => exact value.visits_perm w
  | var _ initializer => exact optionVisits_perm initializer _
  | block body => exact stmtVisits_perm body _
  | ifElse condition thenBranch elseBranch? =>
    cases elseBranch? with
    | none =>
      exact map_reference_append _ _ (condition.visits_perm w) (thenBranch.visits_perm _)
    | some elseBranch =>
      refine map_reference_append _ _ ?_ (elseBranch.visits_perm _)
      exact map_reference_append _ _ (condition.visits_perm w) (thenBranch.visits_perm _)
  | loop condition body =>
    exact map_reference_append _ _ (condition.visits_perm w) (body.visits_perm _)
  | function definition => exact definition.visits_perm _ _
  | ret _ value => exact optionVisits_perm value _
  | brk _ => exact .nil
  | classDef _ superclass methods =>
    cases superclass with
    | none => exact methodVisits_perm methods _
    | some _ => exact (methodVisits_perm methods _).cons _
termination_by structural s

theorem stmtVisits_perm (ss : List Stmt) (w : Walk) :
    ((stmtVisits ss w).map Visit.reference).Perm (stmtReferences ss) := by
  cases ss with
  | nil => exact .nil
  | cons s ss => exact map_reference_append _ _ (s.visits_perm w) (stmtVisits_perm ss _)
termination_by structural ss

theorem FunctionDef.visits_perm (f : FunctionDef) (sort : BodySort) (w : Walk) :
    ((f.visits sort w).map Visit.reference).Perm f.references := by
  cases f with
  | mk _ _ body => exact stmtVisits_perm body _
termination_by structural f

theorem methodVisits_perm (fs : List FunctionDef) (w : Walk) :
    ((methodVisits fs w).map Visit.reference).Perm (methodReferences fs) := by
  cases fs with
  | nil => exact .nil
  | cons f fs => exact map_reference_append _ _ (f.visits_perm _ w) (methodVisits_perm fs _)
termination_by structural fs

end

/-! ## What is recorded -/

namespace Distances

/-- Record what is found for some references, one after the other. -/
def fill (distances : Distances) (found : List (RefId × Option Nat)) : Distances :=
  found.foldl (fun distances f => f.2.elim distances (distances.record f.1)) distances

theorem get?_elim_record (distances : Distances) (id other : RefId) (distance? : Option Nat) :
    (distance?.elim distances (distances.record id)).get? other =
      if other = id then distance?.or (distances.get? other) else distances.get? other := by
  cases distance? with
  | none => simp
  | some d => simp [get?_record]

theorem get?_fill_of_not_mem {found : List (RefId × Option Nat)} {id : RefId}
    (h : id ∉ found.map Prod.fst) (distances : Distances) :
    (distances.fill found).get? id = distances.get? id := by
  induction found generalizing distances with
  | nil => rfl
  | cons f found ih =>
    rw [List.map_cons, List.mem_cons, not_or] at h
    exact (ih h.2 _).trans ((get?_elim_record ..).trans (if_neg h.1))

/-- Of a reference that occurs once, the table holds what was found for it. -/
theorem get?_fill_of_mem {found : List (RefId × Option Nat)}
    (hnodup : (found.map Prod.fst).Nodup) {f : RefId × Option Nat} (h : f ∈ found)
    (distances : Distances) :
    (distances.fill found).get? f.1 = f.2.or (distances.get? f.1) := by
  induction found generalizing distances with
  | nil => exact nomatch h
  | cons f' found ih =>
    rw [List.map_cons, List.nodup_cons] at hnodup
    obtain ⟨hnew, hnodup⟩ := hnodup
    rcases List.mem_cons.1 h with rfl | h
    · -- nothing behind this reference has its identity
      exact (get?_fill_of_not_mem hnew _).trans ((get?_elim_record ..).trans (if_pos rfl))
    · have hne : f.1 ≠ f'.1 := fun heq => hnew (heq ▸ List.mem_map_of_mem h)
      exact (ih hnodup h _).trans
        (congrArg f.2.or ((get?_elim_record ..).trans (if_neg hne)))

/-- Record what is found at a visit. -/
def note (distances : Distances) (v : Visit) : Distances :=
  match v.distance? with
  | some distance => distances.record v.reference.id distance
  | none => distances

/-- Record what is found at some visits, one after the other. -/
def noteAll (distances : Distances) (vs : List Visit) : Distances := vs.foldl note distances

theorem noteAll_append (distances : Distances) (vs vs' : List Visit) :
    distances.noteAll (vs ++ vs') = (distances.noteAll vs).noteAll vs' := List.foldl_append

theorem noteAll_eq_fill (vs : List Visit) (distances : Distances) :
    distances.noteAll vs = distances.fill (vs.map fun v => (v.reference.id, v.distance?)) := by
  have hnote : note = fun distances v =>
      v.distance?.elim distances (distances.record v.reference.id) := by
    funext distances v
    rw [note]
    cases v.distance? <;> rfl
  rw [fill, List.foldl_map, noteAll, hnote]

theorem get?_noteAll_of_not_mem {vs : List Visit} {id : RefId}
    (h : id ∉ vs.map (·.reference.id)) (distances : Distances) :
    (distances.noteAll vs).get? id = distances.get? id := by
  rw [noteAll_eq_fill]
  exact get?_fill_of_not_mem (by simpa using h) distances

/-- Of a reference that is visited once, the table holds what was found there. -/
theorem get?_noteAll_of_mem {vs : List Visit} (hnodup : (vs.map (·.reference.id)).Nodup)
    {v : Visit} (hv : v ∈ vs) (distances : Distances) :
    (distances.noteAll vs).get? v.reference.id =
      v.distance?.or (distances.get? v.reference.id) := by
  rw [noteAll_eq_fill]
  have hnodup : ((vs.map fun v => (v.reference.id, v.distance?)).map Prod.fst).Nodup := by
    rwa [List.map_map]
  exact get?_fill_of_mem hnodup (List.mem_map_of_mem hv) distances

end Distances

open Walk

/-- What is recorded of a reference is what is found at its visit; problems that were reported at it
    do not matter. -/
theorem Walk.locate_distances (v : Visit) {w : Walk}
    (hlooked : v.reference.sort ≠ .this ∨ v.walk.classSort ≠ .noClass)
    (hscopes : w.scopes = v.walk.scopes) (hdistances : w.distances = v.walk.distances) :
    (w.locate v.reference.id v.reference.token).distances = v.walk.distances.note v := by
  have hlooked : ¬ (v.reference.sort = .this ∧ v.walk.classSort = .noClass) := by
    rintro ⟨hthis, hnone⟩
    exact hlooked.elim (fun h => h hthis) fun h => h hnone
  have hdistance : v.distance? = w.distance? v.reference.token.lexeme := by
    rw [Visit.distance?, if_neg hlooked, Walk.distance?, Walk.distance?, hscopes]
  rw [Distances.note, hdistance, ← hdistances, locate]
  cases w.distance? v.reference.token.lexeme <;> rfl

@[simp] theorem Walk.reportIf_scopes (bad : Bool) (token : Token) (problem : StaticProblem)
    (w : Walk) : (w.reportIf bad token problem).scopes = w.scopes := by
  unfold reportIf
  split <;> rfl

@[simp] theorem Walk.reportIf_distances (bad : Bool) (token : Token) (problem : StaticProblem)
    (w : Walk) : (w.reportIf bad token problem).distances = w.distances := by
  unfold reportIf
  split <;> rfl

@[simp] theorem Walk.declare_distances (name : Token) (w : Walk) :
    (w.declare name).distances = w.distances := by
  unfold declare
  split
  · rfl
  · exact put_distances ..

@[simp] theorem Walk.define_distances (name : Token) (w : Walk) :
    (w.define name).distances = w.distances := put_distances ..

@[simp] theorem resolveParams_distances (ps : List Token) (w : Walk) :
    (resolveParams ps w).distances = w.distances := by
  induction ps generalizing w with
  | nil => rfl
  | cons p ps ih => rw [resolveParams, ih, define_distances, declare_distances]

@[simp] theorem leaveClass_distances (superclass : Option Superclass) (outer : ClassSort) (w : Walk) :
    (leaveClass superclass outer w).distances = w.distances := by
  cases superclass <;> rfl

mutual

/-- All that resolving an expression records is what is found at its visits. -/
theorem Expr.resolve_distances (e : Expr) (w : Walk) :
    (e.resolve w).distances = w.distances.noteAll (e.visits w) := by
  cases e with
  | literal _ => rfl
  | grouping inner => exact inner.resolve_distances w
  | unary _ right => exact right.resolve_distances w
  | binary left _ right | logical left _ right =>
    rw [Expr.resolve, Expr.visits, Distances.noteAll_append, ← left.resolve_distances w]
    exact right.resolve_distances _
  | var id name =>
    have hsort : Reference.sort ⟨.var, id, name⟩ ≠ .this := by simp
    exact locate_distances ⟨⟨.var, id, name⟩, w⟩ (.inl hsort) (reportIf_scopes ..)
      (reportIf_distances ..)
  | assign id name value =>
    rw [Expr.resolve, Expr.visits, Distances.noteAll_append, ← value.resolve_distances w]
    have hsort : Reference.sort ⟨.assign, id, name⟩ ≠ .this := by simp
    exact locate_distances ⟨⟨.assign, id, name⟩, value.resolve w⟩ (.inl hsort) rfl rfl
  | call callee _ arguments =>
    rw [Expr.resolve, Expr.visits, Distances.noteAll_append, ← callee.resolve_distances w]
    exact resolveExprs_distances arguments _
  | get object _ => exact object.resolve_distances w
  | set object _ value =>
    rw [Expr.resolve, Expr.visits, Distances.noteAll_append, ← value.resolve_distances w]
    exact object.resolve_distances _
  | thisRef id keyword =>
    rw [Expr.resolve]
    cases hsort : w.classSort with
    | noClass =>
      simp [Expr.visits, Distances.noteAll, Distances.note, Visit.distance?, hsort, report]
    | plain | derived =>
      exact locate_distances ⟨⟨.this, id, keyword⟩, w⟩ (.inr (by simp [hsort])) rfl rfl
  | superRef id keyword _ =>
    rw [Expr.resolve]
    cases w.classSort <;>
      exact locate_distances ⟨⟨.super, id, keyword⟩, w⟩ (.inl (by simp)) rfl rfl
termination_by structural e

theorem resolveExprs_distances (es : List Expr) (w : Walk) :
    (resolveExprs es w).distances = w.distances.noteAll (exprVisits es w) := by
  cases es with
  | nil => rfl
  | cons e es =>
    rw [resolveExprs, exprVisits, Distances.noteAll_append, ← e.resolve_distances w]
    exact resolveExprs_distances es _
termination_by structural es

end

theorem resolveOption_distances (e : Option Expr) (w : Walk) :
    (resolveOption e w).distances = w.distances.noteAll (optionVisits e w) := by
  cases e with
  | none => rfl
  | some e => exact e.resolve_distances w

/-- On the way into a class only its superclass clause is visited. -/
theorem enterClass_distances (name : Token) (superclass : Option Superclass) (w : Walk) :
    (enterClass name superclass w).distances = w.distances.noteAll (superclass.toList.map fun s =>
      ⟨⟨.superclass, s.id, s.name⟩, { (w.declare name).define name with classSort := .plain }⟩) := by
  cases superclass with
  | none => simp [enterClass, enterScope, Distances.noteAll]
  | some s =>
    let v : Visit :=
      ⟨⟨.superclass, s.id, s.name⟩, { (w.declare name).define name with classSort := .plain }⟩
    simp only [enterClass, enterScope, put_distances]
    refine (locate_distances v (.inl (by simp [v])) (by rw [reportIf_scopes])
      (by rw [reportIf_distances])).trans ?_
    show ((w.declare name).define name).distances.noteAll [v] = _
    rw [define_distances, declare_distances]
    rfl

mutual

/-- All that resolving a statement records is what is found at its visits. -/
theorem Stmt.resolve_distances (s : Stmt) (w : Walk) :
    (s.resolve w).distances = w.distances.noteAll (s.visits w) := by
  cases s with
  | expression value | print value => exact value.resolve_distances w
  | var name initializer =>
    rw [Stmt.resolve, define_distances, resolveOption_distances, declare_distances]
    rfl
  | block body => exact resolveStmts_distances body w.enterScope
  | ifElse condition thenBranch elseBranch? =>
    cases elseBranch? with
    | none =>
      rw [Stmt.resolve, Stmt.visits, Distances.noteAll_append, ← condition.resolve_distances w]
      exact thenBranch.resolve_distances _
    | some elseBranch =>
      rw [Stmt.resolve, Stmt.visits, Distances.noteAll_append, Distances.noteAll_append,
        ← condition.resolve_distances w, ← thenBranch.resolve_distances]
      exact elseBranch.resolve_distances _
  | loop condition body =>
    rw [Stmt.resolve, Stmt.visits, Distances.noteAll_append, ← condition.resolve_distances w]
    exact body.resolve_distances _
  | function definition =>
    rw [Stmt.resolve, definition.resolve_distances, define_distances, declare_distances]
    rfl
  | ret keyword value =>
    rw [Stmt.resolve, resolveOption_distances, reportIf_distances, reportIf_distances]
    rfl
  | brk keyword => exact reportIf_distances ..
  | classDef name superclass methods =>
    rw [Stmt.resolve, leaveClass_distances, resolveMethods_distances, enterClass_distances,
      Stmt.visits, Distances.noteAll_append]
termination_by structural s

theorem resolveStmts_distances (ss : List Stmt) (w : Walk) :
    (resolveStmts ss w).distances = w.distances.noteAll (stmtVisits ss w) := by
  cases ss with
  | nil => rfl
  | cons s ss =>
    rw [resolveStmts, stmtVisits, Distances.noteAll_append, ← s.resolve_distances w]
    exact resolveStmts_distances ss _
termination_by structural ss

theorem FunctionDef.resolve_distances (f : FunctionDef) (sort : BodySort) (w : Walk) :
    (f.resolve sort w).distances = w.distances.noteAll (f.visits sort w) := by
  cases f with
  | mk _ params body =>
    have hbody := resolveStmts_distances body
      (resolveParams params { w with body := sort, loops := 0 }.enterScope)
    rw [resolveParams_distances] at hbody
    exact hbody
termination_by structural f

theorem resolveMethods_distances (fs : List FunctionDef) (w : Walk) :
    (resolveMethods fs w).distances = w.distances.noteAll (methodVisits fs w) := by
  cases fs with
  | nil => rfl
  | cons f fs =>
    rw [resolveMethods, methodVisits, Distances.noteAll_append, ← f.resolve_distances]
    exact resolveMethods_distances fs _
termination_by structural fs

end

/-- All that resolving a program records is what is found at its visits. -/
theorem resolveProgram_distances (program : List Stmt) (distances : Distances) :
    (resolveProgram program distances).distances =
      distances.noteAll (stmtVisits program (.start distances)) :=
  resolveStmts_distances program (.start distances)

end Lox
