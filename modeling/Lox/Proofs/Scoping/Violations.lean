import Lox.Proofs.Scoping.Balance

set_option autoImplicit false

/-! # Resolving reports exactly the violations of the static rules

The walk that resolves names keeps what is around the current point in its state. As long as the
state is in step with the text (`Walk.Meets`), each part of the walk reports the rules that the
occurrences of its part break, and nothing else (`Walk.Reports`). As resolving is balanced, the
state is in step with the text again behind that part (`Walk.Meets.of_balanced`). -/

namespace Lox

/-! ## What is known of a name -/

namespace Surroundings

variable {around : Surroundings}

/-- What the walk knows of a name: whether it is ready, if it is in the innermost scope. -/
def knows? (around : Surroundings) (name : String) : Option Bool :=
  if around.has name then some true else if around.initializes name then some false else none

theorem knows?_of_none (h : around.initializing = none) (name : String) :
    around.knows? name = if around.has name then some true else none := by
  simp [knows?, initializes, h]

theorem knows?_initializer (name other : String) :
    (around.initializer name).knows? other =
      if around.has other then some true
      else if around.names.isSome && other == name then some false else none := by
  have hinit : (around.initializer name).initializes other =
      ((around.names.isSome && other == name) && !around.has other) := by
    simp only [initializes, initializer, has, Option.some_beq_some, @BEq.comm String _ _ other]
  rw [knows?, hinit]
  cases h : around.has other <;> simp [initializer, has] at h ⊢ <;> simp [h]

theorem knows?_beq_false (name : String) :
    (around.knows? name == some false) = around.initializes name := by
  unfold knows? initializes
  cases around.has name <;> cases (around.names.isSome && around.initializing == some name) <;> rfl

theorem has_behind (names : List String) (name : String) :
    (around.behind names).has name =
      (around.has name || (around.names.isSome && names.contains name)) := by
  unfold behind has
  cases around.names <;> simp

end Surroundings

namespace Walk

/-! ## In step with the text -/

/-- The walk keeps what is around a point. -/
structure Meets (w : Walk) (around : Surroundings) : Prop where
  body : w.body = around.body
  classSort : w.classSort = around.classSort
  loops : w.loops = 0 ↔ around.inLoop = false
  inScope : w.scopes.isEmpty = around.names.isNone
  names : ∀ name, w.innermost? name = around.knows? name

/-- What a part of the walk leaves behind: problems have been added, and what it changes on its way
    is set back, but for the names of the innermost scope. -/
structure Reports (w w' : Walk) (found : List (Token × StaticProblem)) : Prop where
  problems : w'.problems.toList = w.problems.toList ++ found
  failed : w'.failed = (w.failed || !found.isEmpty)
  body : w'.body = w.body
  classSort : w'.classSort = w.classSort
  loops : w'.loops = w.loops
  outer : w'.scopes.tail = w.scopes.tail

theorem Meets.start (distances : Distances) : (Walk.start distances).Meets .start :=
  ⟨rfl, rfl, by simp [Walk.start, Surroundings.start], by simp [Walk.start, Surroundings.start],
    fun _ => rfl⟩

namespace Reports

variable {w w₁ w' : Walk} {found found' : List (Token × StaticProblem)}

theorem refl (w : Walk) : Reports w w [] := ⟨by simp, by simp, rfl, rfl, rfl, rfl⟩

theorem trans (h : Reports w w₁ found) (h' : Reports w₁ w' found') :
    Reports w w' (found ++ found') where
  problems := by rw [h'.problems, h.problems, List.append_assoc]
  failed := by rw [h'.failed, h.failed]; cases found <;> simp
  body := h'.body.trans h.body
  classSort := h'.classSort.trans h.classSort
  loops := h'.loops.trans h.loops
  outer := h'.outer.trans h.outer

theorem quietly (h : Reports w w₁ found) (h' : Reports w₁ w' []) : Reports w w' found := by
  simpa using h.trans h'

end Reports

namespace Meets

variable {w w' : Walk} {around : Surroundings}

/-- What the walk keeps of a point is all that counts. -/
theorem of_eq (h : w.Meets around) (hbody : w'.body = w.body) (hclass : w'.classSort = w.classSort)
    (hloops : w'.loops = w.loops) (hscopes : w'.scopes = w.scopes) : w'.Meets around where
  body := hbody.trans h.body
  classSort := hclass.trans h.classSort
  loops := by rw [hloops, h.loops]
  inScope := by rw [hscopes, h.inScope]
  names name := by rw [innermost?, hscopes]; exact h.names name

theorem of_checks (h : w.Meets around) (hc : Checks w w') : w'.Meets around :=
  h.of_eq hc.body hc.classSort hc.loops hc.scopes

/-- Behind an expression is what was in front of it. -/
theorem of_finds {references : List Reference} (h : w.Meets around)
    (hf : Finds references w w') : w'.Meets around :=
  h.of_eq hf.body hf.classSort hf.loops hf.scopes

/-- Behind a part of the walk, the names are declared that the part declares. -/
theorem of_balanced {declared : List String} (h : w.Meets around)
    (hinit : around.initializing = none) (hb : Balanced declared w w') :
    w'.Meets (around.behind declared) where
  body := hb.body.trans h.body
  classSort := hb.classSort.trans h.classSort
  loops := by rw [hb.loops, h.loops]; rfl
  inScope := (hb.isEmpty_scopes.trans h.inScope).trans (by simp [Surroundings.behind])
  names name := by
    rw [hb.innermost, h.names, h.inScope, Surroundings.knows?_of_none hinit,
      Surroundings.knows?_of_none (by exact hinit), Surroundings.has_behind, Option.not_isNone]
    cases around.names.isSome <;> cases around.has name <;> cases declared.contains name <;> rfl

end Meets

/-! ## Steps -/

theorem report_reports (token : Token) (problem : StaticProblem) (w : Walk) :
    Reports w (w.report token problem) [(token, problem)] :=
  ⟨by simp [report], by simp [report], rfl, rfl, rfl, rfl⟩

theorem reportIf_reports (bad : Bool) (token : Token) (problem : StaticProblem) (w : Walk) :
    Reports w (w.reportIf bad token problem) (if bad then [(token, problem)] else []) := by
  cases bad with
  | false => exact .refl w
  | true => exact report_reports token problem w

theorem locate_reports (id : RefId) (name : Token) (w : Walk) :
    Reports w (w.locate id name) [] := by
  unfold locate
  split
  · exact ⟨by simp, by simp, rfl, rfl, rfl, rfl⟩
  · exact .refl w

theorem put_reports (name : String) (ready : Bool) (w : Walk) :
    Reports w (w.put name ready) [] := by
  unfold put
  split
  · exact .refl w
  · next h => exact ⟨by simp, by simp, rfl, rfl, rfl, by rw [h]; rfl⟩

section

variable {w : Walk} {around : Surroundings}

/-- A name is declared: until it is made ready, its initializer is read. -/
theorem declare_reports (h : w.Meets around) (hinit : around.initializing = none) (name : Token) :
    Reports w (w.declare name) (violations [⟨.declaration name, around⟩]) ∧
      (w.declare name).Meets (around.initializer name.lexeme) := by
  have hknown (other : String) :
      w.innermost? other = if around.has other then some true else none :=
    (h.names other).trans (Surroundings.knows?_of_none hinit other)
  cases hhas : around.has name.lexeme with
  | true =>
    have hdeclare : w.declare name = w.report name .alreadyDeclared := by
      simp [declare, hknown, hhas]
    have hr := report_reports name .alreadyDeclared w
    rw [hdeclare]
    refine ⟨by simpa [violations, Occurrence.violation?, hhas] using hr,
      h.body, h.classSort, h.loops, h.inScope, fun other => ?_⟩
    rw [show (w.report name .alreadyDeclared).innermost? other = _ from h.names other,
      Surroundings.knows?_of_none hinit, Surroundings.knows?_initializer]
    by_cases hother : other = name.lexeme
    · simp [hother, hhas]
    · simp [hother]
  | false =>
    have hdeclare : w.declare name = w.put name.lexeme false := by
      simp [declare, hknown, hhas]
    have hr := put_reports name.lexeme false w
    rw [hdeclare]
    refine ⟨by simpa [violations, Occurrence.violation?, hhas] using hr,
      hr.body.trans h.body, hr.classSort.trans h.classSort, by rw [hr.loops, h.loops]; rfl,
      (put_setsBack _ _ w).isEmpty_scopes.trans h.inScope, fun other => ?_⟩
    rw [innermost?_put, hknown, h.inScope, Surroundings.knows?_initializer]
    by_cases hother : other = name.lexeme
    · simp [hother, hhas]
    · simp [hother]

/-- A name that is ready at once. -/
theorem declare_define_reports (h : w.Meets around) (hinit : around.initializing = none)
    (name : Token) :
    Reports w ((w.declare name).define name) (violations [⟨.declaration name, around⟩]) :=
  (declare_reports h hinit name).1.quietly (put_reports name.lexeme true _)

/-- A name that is ready at once is declared behind its declaration. -/
theorem Meets.behind (h : w.Meets around) (hinit : around.initializing = none) (name : Token) :
    ((w.declare name).define name).Meets (around.behind [name.lexeme]) :=
  h.of_balanced hinit (.define (.refl (w.declare name)))

end

end Walk

open Walk

/-! ## Expressions -/

mutual

/-- An expression reports the rules that its occurrences break. -/
theorem Expr.resolve_reports {around : Surroundings} (e : Expr) {w : Walk} (h : w.Meets around) :
    Reports w (e.resolve w) (violations (occurrencesAt around e.constructs)) := by
  cases e with
  | literal _ => exact .refl w
  | grouping inner => exact inner.resolve_reports h
  | unary _ right => exact right.resolve_reports h
  | binary left _ right | logical left _ right =>
    simp only [Expr.constructs, occurrencesAt_append, violations_append]
    have hm := h.of_finds (left.resolve_finds w)
    exact (left.resolve_reports h).trans (right.resolve_reports hm)
  | var id name =>
    have hbad : (w.innermost? name.lexeme == some false) = around.initializes name.lexeme := by
      rw [h.names, Surroundings.knows?_beq_false]
    have hfound : violations (occurrencesAt around [.read name]) =
        if w.innermost? name.lexeme == some false then [(name, .readInOwnInitializer)] else [] := by
      rw [hbad]
      cases h : around.initializes name.lexeme <;>
        simp [violations, occurrencesAt, Occurrence.violation?, h]
    rw [Expr.constructs, hfound]
    exact (reportIf_reports _ name .readInOwnInitializer w).quietly (locate_reports id name _)
  | assign id name value =>
    have hvalue := value.resolve_reports h
    exact hvalue.quietly (locate_reports id name _)
  | call callee _ arguments =>
    simp only [Expr.constructs, occurrencesAt_append, violations_append]
    have hm := h.of_finds (callee.resolve_finds w)
    exact (callee.resolve_reports h).trans (resolveExprs_reports arguments hm)
  | get object _ => exact object.resolve_reports h
  | set object _ value =>
    simp only [Expr.constructs, occurrencesAt_append, violations_append]
    have hm := h.of_finds (value.resolve_finds w)
    exact (value.resolve_reports h).trans (object.resolve_reports hm)
  | thisRef id keyword =>
    unfold Expr.resolve Expr.constructs
    cases hsort : w.classSort with
    | noClass =>
      have hfound : violations (occurrencesAt around [.this keyword]) =
          [(keyword, .thisOutsideClass)] := by
        simp [violations, occurrencesAt, Occurrence.violation?, ← h.classSort, hsort]
      exact hfound ▸ report_reports keyword .thisOutsideClass w
    | plain | derived =>
      have hfound : violations (occurrencesAt around [.this keyword]) = [] := by
        simp [violations, occurrencesAt, Occurrence.violation?, ← h.classSort, hsort]
      exact hfound ▸ locate_reports id keyword w
  | superRef id keyword _ =>
    unfold Expr.resolve Expr.constructs
    cases hsort : w.classSort with
    | noClass =>
      have hfound : violations (occurrencesAt around [.super keyword]) =
          [(keyword, .superOutsideClass)] := by
        simp [violations, occurrencesAt, Occurrence.violation?, ← h.classSort, hsort]
      exact hfound ▸ (report_reports keyword .superOutsideClass w).quietly (locate_reports ..)
    | plain =>
      have hfound : violations (occurrencesAt around [.super keyword]) =
          [(keyword, .superWithoutSuperclass)] := by
        simp [violations, occurrencesAt, Occurrence.violation?, ← h.classSort, hsort]
      exact hfound ▸ (report_reports keyword .superWithoutSuperclass w).quietly (locate_reports ..)
    | derived =>
      have hfound : violations (occurrencesAt around [.super keyword]) = [] := by
        simp [violations, occurrencesAt, Occurrence.violation?, ← h.classSort, hsort]
      exact hfound ▸ locate_reports id keyword w
termination_by structural e

theorem resolveExprs_reports {around : Surroundings} (es : List Expr) {w : Walk}
    (h : w.Meets around) :
    Reports w (resolveExprs es w) (violations (occurrencesAt around (exprConstructs es))) := by
  cases es with
  | nil => exact .refl w
  | cons e es =>
    simp only [exprConstructs, occurrencesAt_append, violations_append]
    have hm := h.of_finds (e.resolve_finds w)
    exact (e.resolve_reports h).trans (resolveExprs_reports es hm)
termination_by structural es

end

theorem resolveOption_reports {around : Surroundings} {w : Walk} (e : Option Expr)
    (h : w.Meets around) :
    Reports w (resolveOption e w) (violations (occurrencesAt around (optionConstructs e))) := by
  cases e with
  | none => exact .refl w
  | some e => exact e.resolve_reports h

/-! ## Statements -/

section

variable {w w' : Walk} {around : Surroundings} {found : List (Token × StaticProblem)}

/-- What a part of the walk changes on its way may be changed in front of it and set back behind
    it. -/
theorem Walk.Reports.within {w₁ w₂ : Walk} (h : Reports w₁ w₂ found)
    (hproblems : w₁.problems = w.problems) (hfailed : w₁.failed = w.failed)
    (hproblems' : w'.problems = w₂.problems) (hfailed' : w'.failed = w₂.failed)
    (hback : SetsBack w w') : Reports w w' found where
  problems := by rw [hproblems', h.problems, hproblems]
  failed := by rw [hfailed', h.failed, hfailed]
  body := hback.body
  classSort := hback.classSort
  loops := hback.loops
  outer := hback.outer

theorem Walk.Meets.enterScope (h : w.Meets around) (hinit : around.initializing = none) :
    w.enterScope.Meets { around with names := some [] } where
  body := h.body
  classSort := h.classSort
  loops := h.loops
  inScope := rfl
  names name := (Surroundings.knows?_of_none
    (show Surroundings.initializing { around with names := some [] } = none from hinit) name).symm

theorem violations_ret (keyword : Token) (hasValue : Bool) (around : Surroundings) :
    violations [⟨.ret keyword hasValue, around⟩] =
      (if around.body == .topLevel then [(keyword, .returnOutsideFunction)] else []) ++
        if hasValue && around.body == .initializer then
          [(keyword, .returnValueFromInitializer)] else [] := by
  cases hbody : around.body <;> cases hasValue <;>
    simp [violations, Occurrence.violation?, hbody]

/-- Parameters are declared in turn. -/
theorem resolveParams_reports (ps : List Token) (h : w.Meets around)
    (hinit : around.initializing = none) :
    Reports w (resolveParams ps w) (violations (paramOccurrences around ps)) := by
  induction ps generalizing w around with
  | nil => exact .refl w
  | cons p ps ih =>
    rw [paramOccurrences, violations_cons]
    exact (declare_define_reports h hinit p).trans (ih (h.behind hinit p) hinit)

/-- On the way into a class, its name and its superclass clause are checked. -/
theorem enterClass_reports (h : w.Meets around) (hinit : around.initializing = none) (name : Token)
    (superclass : Option Superclass) :
    ∃ named : Walk, Reports w named (violations (⟨.declaration name, around⟩ ::
        superclass.toList.map (⟨.superclass ·.name name, around⟩))) ∧
      SetsBack ((w.declare name).define name) named ∧
      (enterClass name superclass w).problems = named.problems ∧
      (enterClass name superclass w).failed = named.failed := by
  have hname := declare_define_reports h hinit name
  cases superclass with
  | none => exact ⟨_, hname, .of_scopes rfl rfl rfl rfl, put_problems .., put_failed ..⟩
  | some s =>
    let named := (w.declare name).define name
    let plain : Walk := { named with classSort := .plain }
    let bad := s.name.lexeme == name.lexeme
    let checked := (plain.reportIf bad s.name .inheritsFromItself).locate s.id s.name
    have hclause : Reports plain checked (if bad then [(s.name, .inheritsFromItself)] else []) :=
      (reportIf_reports ..).quietly (locate_reports ..)
    have hscopes : checked.scopes = named.scopes :=
      (locate_scopes ..).trans (reportIf_checks ..).scopes
    have hback : SetsBack named { checked with classSort := named.classSort } :=
      .of_scopes hscopes hclause.body rfl hclause.loops
    have hfound : violations [⟨.superclass s.name name, around⟩] =
        if bad then [(s.name, .inheritsFromItself)] else [] := by
      by_cases hsame : s.name.lexeme = name.lexeme <;>
        simp [violations, Occurrence.violation?, bad, hsame]
    refine ⟨{ checked with classSort := named.classSort }, ?_, hback, ?_, ?_⟩
    · rw [violations_cons, Option.toList_some, List.map_singleton, hfound]
      exact hname.trans (hclause.within rfl rfl rfl rfl hback)
    · simp [enterClass, Walk.enterScope, checked, plain, named, bad]
    · simp [enterClass, Walk.enterScope, checked, plain, named, bad]

end

mutual

/-- A statement reports the rules that its occurrences break, in their order. -/
theorem Stmt.resolve_reports (s : Stmt) {w : Walk} {around : Surroundings} (h : w.Meets around)
    (hinit : around.initializing = none) :
    Reports w (s.resolve w) (violations (s.occurrences around)) := by
  cases s with
  | expression value | print value => exact value.resolve_reports h
  | var name initializer =>
    obtain ⟨hdeclare, hm⟩ := declare_reports h hinit name
    rw [Stmt.occurrences, violations_cons]
    have hvalue := hdeclare.trans (resolveOption_reports initializer hm)
    exact hvalue.quietly (put_reports name.lexeme true _)
  | block body =>
    have hbody := resolveStmts_reports body (h.enterScope hinit) hinit
    have hback := ((Stmt.block body).resolve_balanced w).toSetsBack
    exact hbody.within rfl rfl rfl rfl hback
  | ifElse condition thenBranch elseBranch? =>
    cases elseBranch? with
    | none =>
      have hm := h.of_finds (condition.resolve_finds w)
      rw [Stmt.occurrences, violations_append]
      exact (condition.resolve_reports h).trans (thenBranch.resolve_reports hm hinit)
    | some elseBranch =>
      have hm := h.of_finds (condition.resolve_finds w)
      have hm' := hm.of_balanced hinit (thenBranch.resolve_balanced _)
      have hthen := (condition.resolve_reports h).trans (thenBranch.resolve_reports hm hinit)
      rw [Stmt.occurrences, violations_append, violations_append]
      exact hthen.trans (elseBranch.resolve_reports hm' hinit)
  | loop condition body =>
    have hm := h.of_finds (condition.resolve_finds w)
    have hinner : { condition.resolve w with loops := (condition.resolve w).loops + 1 }.Meets
        { around with inLoop := true } :=
      ⟨hm.body, hm.classSort, by simp, hm.inScope, hm.names⟩
    have hbody := body.resolve_reports hinner hinit
    have hback := (body.resolve_balanced
      { condition.resolve w with loops := (condition.resolve w).loops + 1 }).inLoop.toSetsBack
    rw [Stmt.occurrences, violations_append]
    exact (condition.resolve_reports h).trans (hbody.within rfl rfl rfl rfl hback)
  | function definition =>
    have hm := h.behind hinit definition.name
    have hname := declare_define_reports h hinit definition.name
    rw [Stmt.occurrences, violations_cons]
    exact hname.trans
      (definition.resolve_reports .function (show _ = around.classSort from hm.classSort) hinit)
  | ret keyword value =>
    have hkeyword := (reportIf_reports (w.body == .topLevel) keyword .returnOutsideFunction w).trans
      (reportIf_reports (value.isSome && w.body == .initializer) keyword
        .returnValueFromInitializer _)
    have hm := (h.of_checks (reportIf_checks (w.body == .topLevel) keyword
      .returnOutsideFunction w)).of_checks
        (reportIf_checks (value.isSome && w.body == .initializer) keyword
          .returnValueFromInitializer _)
    have hbody : (w.reportIf (w.body == .topLevel) keyword .returnOutsideFunction).body = w.body :=
      (reportIf_checks ..).body
    rw [Stmt.occurrences, violations_cons, violations_ret, ← h.body, Stmt.resolve, hbody]
    exact hkeyword.trans (resolveOption_reports value hm)
  | brk keyword =>
    have hfound : violations ((Stmt.brk keyword).occurrences around) =
        if w.loops == 0 then [(keyword, .breakOutsideLoop)] else [] := by
      have hloops := h.loops
      cases hin : around.inLoop <;>
        simp_all [violations, Stmt.occurrences, Occurrence.violation?]
    rw [hfound]
    exact reportIf_reports _ keyword .breakOutsideLoop w
  | classDef name superclass methods =>
    have hclass : (enterClass name superclass w).classSort =
        Surroundings.classSort { around with classSort := .within superclass } := by
      cases superclass <;> simp [enterClass, Walk.enterScope, ClassSort.within]
    obtain ⟨named, hnamed, hback, hproblems, hfailed⟩ := enterClass_reports h hinit name superclass
    have hleave := leaveClass_balanced name superclass
      (resolveMethods_balanced methods (enterClass name superclass w)).toSetsBack
    have hmethods := resolveMethods_reports methods hclass hinit
    rw [Stmt.occurrences, violations_append]
    refine hnamed.trans (hmethods.within hproblems hfailed ?_ ?_ ?_)
    · cases superclass <;> rfl
    · cases superclass <;> rfl
    · exact hback.symm.trans hleave.toSetsBack
termination_by structural s

theorem resolveStmts_reports (ss : List Stmt) {w : Walk} {around : Surroundings}
    (h : w.Meets around) (hinit : around.initializing = none) :
    Reports w (resolveStmts ss w) (violations (stmtOccurrences around ss)) := by
  cases ss with
  | nil => exact .refl w
  | cons s ss =>
    rw [stmtOccurrences, violations_append]
    have hm := h.of_balanced hinit (s.resolve_balanced w)
    exact (s.resolve_reports h hinit).trans (resolveStmts_reports ss hm hinit)
termination_by structural ss

theorem FunctionDef.resolve_reports (f : FunctionDef) (sort : BodySort) {w : Walk}
    {around : Surroundings} (hclass : w.classSort = around.classSort)
    (hinit : around.initializing = none) :
    Reports w (f.resolve sort w) (violations (f.occurrences around sort)) := by
  cases f with
  | mk name params body =>
    have hinside : (around.within sort).initializing = none := hinit
    have hm : { w with body := sort, loops := 0 }.enterScope.Meets (around.within sort) :=
      ⟨rfl, hclass, by simp [Walk.enterScope, Surroundings.within], rfl,
        fun name => (Surroundings.knows?_of_none hinside name).symm⟩
    have hm' := hm.of_balanced hinit (resolveParams_balanced params _)
    have hparams := resolveParams_reports params hm hinit
    rw [FunctionDef.occurrences, violations_append]
    have hbody := hparams.trans (resolveStmts_reports body hm' hinit)
    have hback := ((FunctionDef.mk name params body).resolve_balanced sort w).toSetsBack
    exact hbody.within rfl rfl rfl rfl hback
termination_by structural f

theorem resolveMethods_reports (fs : List FunctionDef) {w : Walk} {around : Surroundings}
    (hclass : w.classSort = around.classSort) (hinit : around.initializing = none) :
    Reports w (resolveMethods fs w) (violations (methodOccurrences around fs)) := by
  cases fs with
  | nil => exact .refl w
  | cons f fs =>
    have hf := f.resolve_reports (if f.isInitializer then .initializer else .method) hclass hinit
    rw [methodOccurrences, violations_append]
    exact hf.trans (resolveMethods_reports fs (hf.classSort.trans hclass) hinit)
termination_by structural fs

end

/-! ## Programs -/

/-- What the walk over a whole program finds. -/
theorem resolveStmts_start (program : List Stmt) (distances : Distances) :
    (resolveStmts program (.start distances)).problems.toList = staticViolations program ∧
      (resolveStmts program (.start distances)).failed = !(staticViolations program).isEmpty := by
  have hr := resolveStmts_reports program (Meets.start distances) rfl
  exact ⟨hr.problems, hr.failed⟩

/-- A program may run if and only if no error is reported for it. -/
theorem resolveProgram_accepted_iff {program : List Stmt} {distances : Distances} :
    (resolveProgram program distances).accepted = true ↔
      (resolveProgram program distances).errors = [] := by
  obtain ⟨hproblems, hfailed⟩ := resolveStmts_start program distances
  simp [resolveProgram, hproblems, hfailed]

theorem staticViolations_eq_nil_iff {program : List Stmt} {distances : Distances} :
    staticViolations program = [] ↔ (resolveProgram program distances).errors = [] := by
  obtain ⟨hproblems, -⟩ := resolveStmts_start program distances
  simp [resolveProgram, hproblems]

/-- **The static errors of a program are the violations of the static rules.** Resolving reports, in
    the order of its walk, one error for each occurrence that breaks a rule and no other, whatever
    distances are known before. It accepts the program if and only if there is no such occurrence. -/
theorem resolveProgram_reports_violations (program : List Stmt) (distances : Distances) :
    (resolveProgram program distances).errors =
        (staticViolations program).map (fun found => .resolve found.1 found.2) ∧
      ((resolveProgram program distances).accepted = true ↔ staticViolations program = []) := by
  obtain ⟨hproblems, hfailed⟩ := resolveStmts_start program distances
  refine ⟨by rw [resolveProgram, hproblems], ?_⟩
  simp [resolveProgram, hfailed]

end Lox
