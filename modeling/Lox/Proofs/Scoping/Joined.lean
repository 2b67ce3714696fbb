import Lox.Proofs.Scoping.Accepted
import Lox.Proofs.Scoping.Violations

set_option autoImplicit false

/-! # Programs resolved one behind the other

The walk never looks at what it has found: had other problems been found before it, and other
distances been known, it would go the same way and add the same to them (`Stmt.resolve_after`).
Behind a program it is where it started, for resolving is balanced. So a program that stands behind
another one is resolved as if it came by itself, accepted or not (`resolveProgram_followedBy`), and
what resolving finds in the two of them together is what it finds in each of them alone
(`resolving_balances_and_adds_up`). -/

namespace Lox

/-! ## Tables -/

namespace Distances

/-- What a table knows, and where it knows nothing, what another one does. -/
def laidOver (distances known : Distances) : Distances where
  entries := .ofFn fun (id : Fin (max distances.entries.size known.entries.size)) =>
    (distances.get? id).or (known.get? id)

theorem get?_of_size_le {distances : Distances} {id : RefId} (h : distances.entries.size ≤ id) :
    distances.get? id = none := by
  rw [get?, Array.getElem?_eq_none h]
  rfl

theorem get?_laidOver (distances known : Distances) (id : RefId) :
    (distances.laidOver known).get? id = (distances.get? id).or (known.get? id) := by
  rw [get?, laidOver, Array.getElem?_ofFn]
  split
  · rfl
  · next h =>
    rw [get?_of_size_le (by omega), get?_of_size_le (by omega)]
    rfl

/-- Tables of one size that know the same are equal. -/
theorem ext_get? {distances distances' : Distances}
    (hsize : distances.entries.size = distances'.entries.size)
    (h : ∀ id, distances.get? id = distances'.get? id) : distances = distances' := by
  obtain ⟨entries⟩ := distances
  obtain ⟨entries'⟩ := distances'
  refine congrArg mk (Array.ext hsize fun id hid hid' => ?_)
  have hget := h id
  simp only [get?, Array.getElem?_eq_getElem hid, Array.getElem?_eq_getElem hid'] at hget
  exact hget

theorem size_laidOver (distances known : Distances) :
    (distances.laidOver known).entries.size = max distances.entries.size known.entries.size :=
  Array.size_ofFn

theorem size_record (distances : Distances) (id : RefId) (distance : Nat) :
    (distances.record id distance).entries.size = max distances.entries.size (id + 1) := by
  simp only [record, Array.size_setIfInBounds, Array.size_append, Array.size_replicate]
  omega

@[simp] theorem record_laidOver (distances known : Distances) (id : RefId) (distance : Nat) :
    (distances.laidOver known).record id distance =
      (distances.record id distance).laidOver known := by
  refine ext_get? ?_ fun other => ?_
  · simp only [size_record, size_laidOver]
    omega
  · simp only [get?_record, get?_laidOver]
    split <;> rfl

@[simp] theorem empty_laidOver (known : Distances) : empty.laidOver known = known := by
  refine ext_get? ?_ fun id => ?_
  · rw [size_laidOver]
    exact Nat.zero_max _
  · rw [get?_laidOver, get?_of_size_le (Nat.zero_le id)]
    exact Option.none_or

end Distances

/-! ## Walks -/

namespace Walk

/-- The walk, had it come by the problems of another one before and known its distances. -/
def after (w past : Walk) : Walk :=
  { w with
    failed := past.failed || w.failed
    problems := past.problems ++ w.problems
    distances := w.distances.laidOver past.distances }

variable (w past : Walk)

@[simp] theorem after_scopes : (w.after past).scopes = w.scopes := rfl

@[simp] theorem after_body : (w.after past).body = w.body := rfl

@[simp] theorem after_classSort : (w.after past).classSort = w.classSort := rfl

@[simp] theorem after_loops : (w.after past).loops = w.loops := rfl

theorem report_after (token : Token) (problem : StaticProblem) :
    (w.after past).report token problem = (w.report token problem).after past := by
  simp [report, after]

theorem reportIf_after (bad : Bool) (token : Token) (problem : StaticProblem) :
    (w.after past).reportIf bad token problem = (w.reportIf bad token problem).after past := by
  cases bad with
  | false => rfl
  | true => exact w.report_after past token problem

theorem put_after (name : String) (ready : Bool) :
    (w.after past).put name ready = (w.put name ready).after past := by
  unfold put
  rw [after_scopes]
  cases w.scopes <;> rfl

theorem innermost?_after (name : String) : (w.after past).innermost? name = w.innermost? name := rfl

theorem declare_after (name : Token) :
    (w.after past).declare name = (w.declare name).after past := by
  rw [declare, declare, innermost?_after, report_after, put_after, apply_ite (Walk.after · past)]

theorem define_after (name : Token) : (w.after past).define name = (w.define name).after past :=
  w.put_after past name.lexeme true

theorem locate_after (id : RefId) (name : Token) :
    (w.after past).locate id name = (w.locate id name).after past := by
  have hdistance : (w.after past).distance? name.lexeme = w.distance? name.lexeme := rfl
  rw [locate, locate, hdistance]
  cases w.distance? name.lexeme with
  | none => rfl
  | some distance => simp [after]

end Walk

open Walk

/-! ## Expressions -/

mutual

theorem Expr.resolve_after (past : Walk) (e : Expr) (w : Walk) :
    e.resolve (w.after past) = (e.resolve w).after past := by
  cases e with
  | literal _ => rfl
  | grouping inner => exact inner.resolve_after past w
  | unary _ right => exact right.resolve_after past w
  | binary left _ right | logical left _ right =>
    simp only [Expr.resolve, left.resolve_after, right.resolve_after]
  | var id name =>
    simp only [Expr.resolve, innermost?_after, reportIf_after, locate_after]
  | assign id name value =>
    simp only [Expr.resolve, value.resolve_after, locate_after]
  | call callee _ arguments =>
    simp only [Expr.resolve, callee.resolve_after, resolveExprs_after past arguments]
  | get object _ => exact object.resolve_after past w
  | set object _ value =>
    simp only [Expr.resolve, value.resolve_after, object.resolve_after]
  | thisRef id keyword =>
    simp only [Expr.resolve, after_classSort]
    cases w.classSort with
    | noClass => exact report_after ..
    | plain | derived => exact locate_after ..
  | superRef id keyword _ =>
    simp only [Expr.resolve, after_classSort]
    cases w.classSort with
    | noClass | plain => simp only [report_after, locate_after]
    | derived => exact locate_after ..
termination_by structural e

theorem resolveExprs_after (past : Walk) (es : List Expr) (w : Walk) :
    resolveExprs es (w.after past) = (resolveExprs es w).after past := by
  cases es with
  | nil => rfl
  | cons e es =>
    simp only [resolveExprs, e.resolve_after, resolveExprs_after past es]
termination_by structural es

end

theorem resolveOption_after (past : Walk) (e : Option Expr) (w : Walk) :
    resolveOption e (w.after past) = (resolveOption e w).after past := by
  cases e with
  | none => rfl
  | some e => exact e.resolve_after past w

/-! ## Statements -/

theorem resolveParams_after (past : Walk) (ps : List Token) (w : Walk) :
    resolveParams ps (w.after past) = (resolveParams ps w).after past := by
  induction ps generalizing w with
  | nil => rfl
  | cons p ps ih => rw [resolveParams, declare_after, define_after, ih, resolveParams]

theorem enterClass_after (past : Walk) (name : Token) (superclass : Option Superclass) (w : Walk) :
    enterClass name superclass (w.after past) = (enterClass name superclass w).after past := by
  let plain : Walk := { (w.declare name).define name with classSort := .plain }
  have hplain : { ((w.after past).declare name).define name with classSort := .plain } =
      plain.after past := by
    rw [declare_after, define_after]
    rfl
  cases superclass with
  | none =>
    rw [enterClass, hplain]
    exact put_after plain.enterScope past "this" true
  | some s =>
    let located := (plain.reportIf (s.name.lexeme == name.lexeme) s.name .inheritsFromItself).locate
      s.id s.name
    let parent := { located with classSort := .derived }.enterScope.put "super" true
    have hlocated : ((plain.after past).reportIf (s.name.lexeme == name.lexeme) s.name
        .inheritsFromItself).locate s.id s.name = located.after past := by
      rw [reportIf_after, locate_after]
    have hparent : { located.after past with classSort := .derived }.enterScope.put "super" true =
        parent.after past := put_after { located with classSort := .derived }.enterScope ..
    rw [enterClass, hplain]
    simp only [hlocated, hparent]
    exact put_after parent.enterScope past "this" true

theorem leaveClass_after (past : Walk) (superclass : Option Superclass) (outer : ClassSort)
    (w : Walk) :
    leaveClass superclass outer (w.after past) = (leaveClass superclass outer w).after past := by
  cases superclass <;> rfl

mutual

/-- Whatever was found before a statement, the same is found in it. -/
theorem Stmt.resolve_after (past : Walk) (s : Stmt) (w : Walk) :
    s.resolve (w.after past) = (s.resolve w).after past := by
  cases s with
  | expression value | print value => exact value.resolve_after past w
  | var name initializer =>
    simp only [Stmt.resolve, declare_after, resolveOption_after, define_after]
  | block body => exact congrArg leaveScope (resolveStmts_after past body w.enterScope)
  | ifElse condition thenBranch elseBranch? =>
    cases elseBranch? with
    | none =>
      simp only [Stmt.resolve, condition.resolve_after, thenBranch.resolve_after]
    | some elseBranch =>
      simp only [Stmt.resolve, condition.resolve_after, thenBranch.resolve_after,
        elseBranch.resolve_after]
  | loop condition body =>
    have hbody := body.resolve_after past
      { condition.resolve w with loops := (condition.resolve w).loops + 1 }
    simp only [Stmt.resolve, condition.resolve_after]
    exact congrArg (fun inner : Walk => { inner with loops := inner.loops - 1 }) hbody
  | function definition =>
    simp only [Stmt.resolve, declare_after, define_after, definition.resolve_after]
  | ret keyword value =>
    simp only [Stmt.resolve, after_body, reportIf_after, resolveOption_after]
  | brk keyword =>
    simp only [Stmt.resolve, after_loops, reportIf_after]
  | classDef name superclass methods =>
    simp only [Stmt.resolve, after_classSort, enterClass_after, resolveMethods_after past methods,
      leaveClass_after]
termination_by structural s

theorem resolveStmts_after (past : Walk) (ss : List Stmt) (w : Walk) :
    resolveStmts ss (w.after past) = (resolveStmts ss w).after past := by
  cases ss with
  | nil => rfl
  | cons s ss =>
    simp only [resolveStmts, s.resolve_after, resolveStmts_after past ss]
termination_by structural ss

theorem FunctionDef.resolve_after (past : Walk) (f : FunctionDef) (sort : BodySort) (w : Walk) :
    f.resolve sort (w.after past) = (f.resolve sort w).after past := by
  cases f with
  | mk _ params body =>
    let entered := { w with body := sort, loops := 0 }.enterScope
    have hbody : resolveStmts body (resolveParams params (entered.after past)) =
        (resolveStmts body (resolveParams params entered)).after past := by
      rw [resolveParams_after, resolveStmts_after past body]
    exact congrArg (fun inner => { inner.leaveScope with body := w.body, loops := w.loops }) hbody
termination_by structural f

theorem resolveMethods_after (past : Walk) (fs : List FunctionDef) (w : Walk) :
    resolveMethods fs (w.after past) = (resolveMethods fs w).after past := by
  cases fs with
  | nil => rfl
  | cons f fs =>
    simp only [resolveMethods, f.resolve_after, resolveMethods_after past fs]
termination_by structural fs

end

/-! ## Programs -/

/-- What resolving comes to where another program is resolved before. -/
def Resolution.followedBy (r r' : Resolution) : Resolution where
  accepted := r.accepted && r'.accepted
  errors := r.errors ++ r'.errors
  distances := r'.distances.laidOver r.distances

theorem resolveStmts_append (ss ss' : List Stmt) (w : Walk) :
    resolveStmts (ss ++ ss') w = resolveStmts ss' (resolveStmts ss w) := by
  induction ss generalizing w with
  | nil => rfl
  | cons s ss ih => exact ih (s.resolve w)

/-- A walk that is back where it started differs from one that starts in what it found. -/
theorem Walk.start_after {known : Distances} {w : Walk} (h : SetsBack (.start known) w) :
    (start .empty).after w = w := by
  have hscopes : w.scopes = [] := List.length_eq_zero_iff.1 h.depth
  obtain ⟨-, -, hbody, hclass, hloops⟩ := h
  obtain ⟨scopes, body, classSort, loops, failed, problems, distances⟩ := w
  subst hscopes hbody hclass hloops
  simp [after, start]

/-- Behind another program, a program is resolved as if it came by itself. -/
theorem resolveProgram_followedBy (ss ss' : List Stmt) (known : Distances) :
    resolveProgram (ss ++ ss') known =
      (resolveProgram ss known).followedBy (resolveProgram ss' .empty) := by
  let past := resolveStmts ss (.start known)
  have hpast : (Walk.start .empty).after past = past :=
    start_after (resolveStmts_balanced ss (.start known)).toSetsBack
  have hwalk : resolveStmts (ss ++ ss') (.start known) =
      (resolveStmts ss' (.start .empty)).after past := by
    rw [resolveStmts_append, ← resolveStmts_after, hpast]
  simp [resolveProgram, Resolution.followedBy, hwalk, Walk.after, past]

/-- What is known before resolving a program has no part in what is found. -/
theorem resolveProgram_known (program : List Stmt) (known : Distances) :
    resolveProgram program known =
      (⟨true, [], known⟩ : Resolution).followedBy (resolveProgram program .empty) :=
  resolveProgram_followedBy [] program known

/-- Behind an accepted program, another one is resolved with the distances that the first one
    leaves behind. -/
theorem resolveProgram_append {ss : List Stmt} {distances : Distances}
    (h : (resolveProgram ss distances).errors = []) (ss' : List Stmt) :
    resolveProgram (ss ++ ss') distances =
      resolveProgram ss' (resolveProgram ss distances).distances := by
  have haccepted : (resolveProgram ss distances).accepted = true :=
    resolveProgram_accepted_iff.2 h
  rw [resolveProgram_followedBy, resolveProgram_known ss' (resolveProgram ss distances).distances,
    Resolution.followedBy, haccepted, h]
  rfl

/-! ## What is recorded -/

section

variable {ss ss' : List Stmt} {known : Distances} {id : RefId}

theorem get?_resolveProgram_empty (h : id ∉ (stmtReferences ss).map Reference.id) :
    (resolveProgram ss .empty).distances.get? id = none :=
  (get?_resolveProgram ss .empty h).trans (Distances.get?_of_size_le (Nat.zero_le id))

theorem get?_resolveProgram_known :
    (resolveProgram ss known).distances.get? id =
      ((resolveProgram ss .empty).distances.get? id).or (known.get? id) := by
  rw [resolveProgram_known]
  exact Distances.get?_laidOver ..

theorem get?_resolveProgram_append :
    (resolveProgram (ss ++ ss') known).distances.get? id =
      ((resolveProgram ss' .empty).distances.get? id).or
        ((resolveProgram ss known).distances.get? id) := by
  rw [resolveProgram_followedBy]
  exact Distances.get?_laidOver ..

/-- The second program leaves alone what does not belong to it. -/
theorem get?_resolveProgram_append_left (h : id ∉ (stmtReferences ss').map Reference.id) :
    (resolveProgram (ss ++ ss') known).distances.get? id =
      (resolveProgram ss known).distances.get? id := by
  rw [get?_resolveProgram_append, get?_resolveProgram_empty h, Option.none_or]

/-- The second program finds what it finds alone where the first has recorded nothing. -/
theorem get?_resolveProgram_append_right (h : id ∉ (stmtReferences ss).map Reference.id) :
    (resolveProgram (ss ++ ss') known).distances.get? id =
      (resolveProgram ss' known).distances.get? id := by
  rw [get?_resolveProgram_append, get?_resolveProgram ss known h, ← get?_resolveProgram_known]

end

/-! ## What is found in two programs -/

/-- Resolving two programs, the second behind the first, finds what resolving each of them alone
    finds: the errors of the first before those of the second, for each reference the distance that
    it gets in its own program, and nothing else. -/
structure AddsUp (ss ss' : List Stmt) (known : Distances) : Prop where
  errors : (resolveProgram (ss ++ ss') known).errors =
    (resolveProgram ss known).errors ++ (resolveProgram ss' known).errors
  accepted : (resolveProgram (ss ++ ss') known).accepted =
    ((resolveProgram ss known).accepted && (resolveProgram ss' known).accepted)
  first : ∀ r ∈ stmtReferences ss,
    (resolveProgram (ss ++ ss') known).distances.get? r.id =
      (resolveProgram ss known).distances.get? r.id
  second : ∀ r ∈ stmtReferences ss',
    (resolveProgram (ss ++ ss') known).distances.get? r.id =
      (resolveProgram ss' known).distances.get? r.id
  others : ∀ id, id ∉ (stmtReferences ss).map Reference.id →
    id ∉ (stmtReferences ss').map Reference.id →
      (resolveProgram (ss ++ ss') known).distances.get? id = known.get? id

/-- **Resolving is balanced, and so it adds up.** Behind an expression or a statement, whatever
    state the walk was in and whatever problems it came by, the number of scopes, all scopes but the
    innermost one, and the function, the class and the loops around the point are as before; the
    innermost scope has the names that the statement declares besides those it had. So two programs
    with no reference in common, one behind the other, are resolved as each of them is alone. -/
theorem resolving_balances_and_adds_up :
    (∀ (e : Expr) (w : Walk), Balanced [] w (e.resolve w)) ∧
      (∀ (s : Stmt) (w : Walk), Balanced s.declared w (s.resolve w)) ∧
        ∀ (ss ss' : List Stmt) (known : Distances),
          (∀ r ∈ stmtReferences ss, ∀ r' ∈ stmtReferences ss', r.id ≠ r'.id) →
            AddsUp ss ss' known := by
  refine ⟨fun e w => .of_finds (e.resolve_finds w), Stmt.resolve_balanced,
    fun ss ss' known hapart => ?_⟩
  have hknown := resolveProgram_known ss' known
  have hjoined := resolveProgram_followedBy ss ss' known
  constructor
  case errors => rw [hjoined, hknown]; rfl
  case accepted => rw [hjoined, hknown]; rfl
  case first =>
    intro r hr
    refine get?_resolveProgram_append_left fun hid => ?_
    obtain ⟨r', hr', heq⟩ := List.mem_map.1 hid
    exact hapart r hr r' hr' heq.symm
  case second =>
    intro r' hr'
    refine get?_resolveProgram_append_right fun hid => ?_
    obtain ⟨r, hr, heq⟩ := List.mem_map.1 hid
    exact hapart r hr r' hr' heq
  case others =>
    intro id hid hid'
    rw [get?_resolveProgram_append_left hid', get?_resolveProgram ss known hid]

/-- `{ var a = a; fun f(b) { { print b; } } }`, where `a` is read in its own initializer. -/
def readTooEarly : List Stmt :=
  [.block [.var ⟨.identifier, "a", 1⟩ (some (.var 0 ⟨.identifier, "a", 1⟩)),
    .function ⟨⟨.identifier, "f", 1⟩, [⟨.identifier, "b", 1⟩],
      [.block [.print (.var 1 ⟨.identifier, "b", 1⟩)]]⟩]]

/-- `class C { m() { break; return this; } }`, where the `break` is outside of all loops. -/
def strayBreak : List Stmt :=
  [.classDef ⟨.identifier, "C", 2⟩ none [⟨⟨.identifier, "m", 2⟩, [],
    [.brk ⟨.breakKw, "break", 2⟩,
      .ret ⟨.returnKw, "return", 2⟩ (some (.thisRef 2 ⟨.thisKw, "this", 2⟩))]⟩]]

theorem resolving_balances_and_adds_up_twoErrors :
    (∀ r ∈ stmtReferences readTooEarly, ∀ r' ∈ stmtReferences strayBreak, r.id ≠ r'.id) ∧
      AddsUp readTooEarly strayBreak .empty ∧
      (resolveProgram (readTooEarly ++ strayBreak) .empty).errors.map Error.text =
        ["[line 1] Error at 'a': Can't read local variable in its own initializer.",
          "[line 2] Error at 'break': Can't use 'break' outside of a loop."] ∧
      [0, 1, 2].map (resolveProgram (readTooEarly ++ strayBreak) .empty).distances.get? =
        [some 0, some 1, some 1] := by
  have hapart : ∀ r ∈ stmtReferences readTooEarly, ∀ r' ∈ stmtReferences strayBreak,
      r.id ≠ r'.id := by decide
  exact ⟨hapart, resolving_balances_and_adds_up.2.2 _ _ _ hapart, by decide +kernel,
    by decide +kernel⟩

end Lox
