import Lox.Proofs.Alike.Trees
import Lox.Resolve

set_option autoImplicit false

/-! # Alike programs are resolved alike

Resolving two alike programs reports the same problems at corresponding tokens and records the same
distances for corresponding references. For this the correspondence of identities must be one to
one: else a distance recorded for one reference could get into the way of another. -/

namespace Lox

/-- Corresponding identities are equal on one side if and only if they are on the other. -/
def OneToOne (ids : RefId → RefId → Prop) : Prop :=
  ∀ id id' other other', ids id id' → ids other other' → (id' = other' ↔ id = other)

/-- Corresponding references have the same distances. -/
def Distances.Alike (ids : RefId → RefId → Prop) (distances distances' : Distances) : Prop :=
  ∀ id id', ids id id' → distances'.get? id' = distances.get? id

theorem Distances.Alike.record {ids : RefId → RefId → Prop} {distances distances' : Distances}
    (h : distances.Alike ids distances') (hids : OneToOne ids) {id id' : RefId} (hid : ids id id')
    (distance : Nat) :
    (distances.record id distance).Alike ids (distances'.record id' distance) := by
  intro other other' hother
  rw [get?_record, get?_record, h other other' hother]
  simp only [hids other other' id id' hother hid]

/-! ## Walks -/

namespace Walk

/-- Two walks at corresponding points of alike programs. -/
structure Alike (lines : Nat) (ids : RefId → RefId → Prop) (w w' : Walk) : Prop where
  scopes : w'.scopes = w.scopes
  body : w'.body = w.body
  classSort : w'.classSort = w.classSort
  loops : w'.loops = w.loops
  failed : w'.failed = w.failed
  problems : w'.problems = w.problems.map fun found => (found.1.down lines, found.2)
  distances : w.distances.Alike ids w'.distances

namespace Alike

variable {lines : Nat} {ids : RefId → RefId → Prop} {w w' : Walk}

theorem start {distances distances' : Distances} (h : distances.Alike ids distances') :
    (Walk.start distances).Alike lines ids (.start distances') :=
  ⟨rfl, rfl, rfl, rfl, rfl, Array.map_empty.symm, h⟩

theorem report (h : w.Alike lines ids w') (token : Token) (problem : StaticProblem) :
    (w.report token problem).Alike lines ids (w'.report (token.down lines) problem) :=
  ⟨h.scopes, h.body, h.classSort, h.loops, rfl, by
    show w'.problems.push _ = (w.problems.push _).map _
    rw [Array.map_push, h.problems], h.distances⟩

theorem reportIf (h : w.Alike lines ids w') (bad : Bool) (token : Token) (problem : StaticProblem) :
    (w.reportIf bad token problem).Alike lines ids
      (w'.reportIf bad (token.down lines) problem) := by
  cases bad with
  | false => exact h
  | true => exact h.report token problem

theorem enterScope (h : w.Alike lines ids w') : w.enterScope.Alike lines ids w'.enterScope :=
  ⟨congrArg ([] :: ·) h.scopes, h.body, h.classSort, h.loops, h.failed, h.problems, h.distances⟩

theorem leaveScope (h : w.Alike lines ids w') : w.leaveScope.Alike lines ids w'.leaveScope :=
  ⟨congrArg List.tail h.scopes, h.body, h.classSort, h.loops, h.failed, h.problems, h.distances⟩

theorem put (h : w.Alike lines ids w') (name : String) (ready : Bool) :
    (w.put name ready).Alike lines ids (w'.put name ready) := by
  unfold Walk.put
  rw [h.scopes]
  split
  · exact h
  · exact ⟨rfl, h.body, h.classSort, h.loops, h.failed, h.problems, h.distances⟩

theorem innermost? (h : w.Alike lines ids w') (name : String) :
    w'.innermost? name = w.innermost? name := by
  rw [Walk.innermost?, Walk.innermost?, h.scopes]

theorem declare (h : w.Alike lines ids w') (name : Token) :
    (w.declare name).Alike lines ids (w'.declare (name.down lines)) := by
  unfold Walk.declare
  rw [Token.down_lexeme, h.innermost?]
  split
  · exact h.report name .alreadyDeclared
  · exact h.put name.lexeme false

theorem define (h : w.Alike lines ids w') (name : Token) :
    (w.define name).Alike lines ids (w'.define (name.down lines)) :=
  h.put name.lexeme true

theorem locate (h : w.Alike lines ids w') (hids : OneToOne ids) {id id' : RefId}
    (hid : ids id id') (name : Token) :
    (w.locate id name).Alike lines ids (w'.locate id' (name.down lines)) := by
  have hdistance : w'.distance? name.lexeme = w.distance? name.lexeme := by
    rw [Walk.distance?, Walk.distance?, h.scopes]
  unfold Walk.locate
  rw [Token.down_lexeme, hdistance]
  split
  · exact ⟨h.scopes, h.body, h.classSort, h.loops, h.failed, h.problems,
      h.distances.record hids hid _⟩
  · exact h

theorem inClass (h : w.Alike lines ids w') (sort : ClassSort) :
    { w with classSort := sort }.Alike lines ids { w' with classSort := sort } :=
  ⟨h.scopes, h.body, rfl, h.loops, h.failed, h.problems, h.distances⟩

theorem inBody (h : w.Alike lines ids w') {body body' : BodySort} {loops loops' : Nat}
    (hbody : body' = body) (hloops : loops' = loops) :
    { w with body, loops }.Alike lines ids { w' with body := body', loops := loops' } :=
  ⟨h.scopes, hbody, h.classSort, hloops, h.failed, h.problems, h.distances⟩

end Alike

end Walk

open Walk

variable {lines : Nat} {moved : Token → Prop} {ids : RefId → RefId → Prop}

/-! ## Expressions -/

mutual

theorem Expr.resolve_alike (hids : OneToOne ids) (e : Expr) {e' : Expr} {w w' : Walk}
    (he : e.Alike lines moved ids e') (h : w.Alike lines ids w') :
    (e.resolve w).Alike lines ids (e'.resolve w') := by
  cases e with
  | literal _ => cases he; exact h
  | grouping inner =>
    cases he with | grouping he => exact (inner.resolve_alike hids he h :)
  | unary _ right =>
    cases he with | unary _ he => exact (right.resolve_alike hids he h :)
  | binary left _ right =>
    cases he with
    | binary _ hl hr =>
      have hleft := left.resolve_alike hids hl h
      exact (right.resolve_alike hids hr hleft :)
  | logical left _ right =>
    cases he with
    | logical _ hl hr =>
      have hleft := left.resolve_alike hids hl h
      exact (right.resolve_alike hids hr hleft :)
  | var _ name =>
    cases he with
    | var _ hid =>
      simp only [Expr.resolve, Token.down_lexeme, h.innermost?]
      exact (h.reportIf _ name _).locate hids hid name
  | assign _ name value =>
    cases he with
    | assign _ hid hv => exact (value.resolve_alike hids hv h).locate hids hid name
  | call callee _ arguments =>
    cases he with
    | call _ hf hes =>
      have hcallee := callee.resolve_alike hids hf h
      exact resolveExprs_alike hids arguments hes hcallee
  | get object _ =>
    cases he with | get _ ho => exact (object.resolve_alike hids ho h :)
  | set object _ value =>
    cases he with
    | set _ ho hv =>
      have hvalue := value.resolve_alike hids hv h
      exact (object.resolve_alike hids ho hvalue :)
  | thisRef _ keyword =>
    cases he with
    | thisRef _ hid =>
      unfold Expr.resolve
      rw [h.classSort]
      cases w.classSort with
      | noClass => exact h.report keyword _
      | plain | derived => exact h.locate hids hid keyword
  | superRef _ keyword _ =>
    cases he with
    | superRef _ _ hid =>
      unfold Expr.resolve
      rw [h.classSort]
      cases w.classSort with
      | noClass | plain => exact (h.report keyword _).locate hids hid keyword
      | derived => exact h.locate hids hid keyword
termination_by structural e

theorem resolveExprs_alike (hids : OneToOne ids) (es : List Expr) {es' : List Expr} {w w' : Walk}
    (hes : List.Forall₂ (Expr.Alike lines moved ids) es es') (h : w.Alike lines ids w') :
    (resolveExprs es w).Alike lines ids (resolveExprs es' w') := by
  cases es with
  | nil => cases hes; exact h
  | cons e es =>
    cases hes with
    | cons he hes =>
      have hfirst := e.resolve_alike hids he h
      exact (resolveExprs_alike hids es hes hfirst :)
termination_by structural es

end

theorem resolveOption_alike (hids : OneToOne ids) {e e' : Option Expr} {w w' : Walk}
    (he : Option.Rel (Expr.Alike lines moved ids) e e') (h : w.Alike lines ids w') :
    (resolveOption e w).Alike lines ids (resolveOption e' w') := by
  cases he with
  | none => exact h
  | some he => exact Expr.resolve_alike hids _ he h

/-! ## Statements -/

theorem resolveParams_alike (ps : List Token) {w w' : Walk} (h : w.Alike lines ids w') :
    (resolveParams ps w).Alike lines ids (resolveParams (ps.map (Token.down lines)) w') := by
  induction ps generalizing w w' with
  | nil => exact h
  | cons p ps ih => exact ih ((h.declare p).define p)

theorem enterClass_alike (hids : OneToOne ids) (name : Token) {s s' : Option Superclass}
    {w w' : Walk} (hs : Option.Rel (Superclass.Alike lines moved ids) s s')
    (h : w.Alike lines ids w') :
    (enterClass name s w).Alike lines ids (enterClass (name.down lines) s' w') := by
  have hplain := ((h.declare name).define name).inClass .plain
  cases hs with
  | none => exact hplain.enterScope.put "this" true
  | some hs =>
    cases hs with
    | @mk _ _ parent _ hid =>
      have hclause := (hplain.reportIf (parent.lexeme == name.lexeme) parent
        .inheritsFromItself).locate hids hid parent
      exact (((hclause.inClass .derived).enterScope.put "super" true).enterScope).put "this" true

theorem leaveClass_alike {s s' : Option Superclass} {w w' : Walk}
    (hs : Option.Rel (Superclass.Alike lines moved ids) s s') (outer : ClassSort)
    (h : w.Alike lines ids w') :
    (leaveClass s outer w).Alike lines ids (leaveClass s' outer w') := by
  cases hs with
  | none => exact h.leaveScope.inClass outer
  | some _ => exact h.leaveScope.leaveScope.inClass outer

mutual

theorem Stmt.resolve_alike (hids : OneToOne ids) (s : Stmt) {s' : Stmt} {w w' : Walk}
    (hs : s.Alike lines moved ids s') (h : w.Alike lines ids w') :
    (s.resolve w).Alike lines ids (s'.resolve w') := by
  cases s with
  | expression value =>
    cases hs with | expression he => exact value.resolve_alike hids he h
  | print value =>
    cases hs with | print he => exact value.resolve_alike hids he h
  | var name _ =>
    cases hs with
    | var _ he => exact (resolveOption_alike hids he (h.declare name)).define name
  | block body =>
    cases hs with
    | block hss =>
      have hbody := resolveStmts_alike hids body hss h.enterScope
      exact hbody.leaveScope
  | ifElse condition thenBranch elseBranch? =>
    cases hs with
    | ifElse hc ht ho =>
      have hthen := thenBranch.resolve_alike hids ht (condition.resolve_alike hids hc h)
      cases elseBranch? with
      | none =>
        cases ho
        exact hthen
      | some elseBranch =>
        cases ho with
        | some ho => exact (elseBranch.resolve_alike hids ho hthen :)
  | loop condition body =>
    cases hs with
    | loop hc hb =>
      have hcondition := condition.resolve_alike hids hc h
      have hbody := body.resolve_alike hids hb
        (hcondition.inBody hcondition.body (congrArg (· + 1) hcondition.loops))
      exact hbody.inBody hbody.body (congrArg (· - 1) hbody.loops)
  | function definition =>
    cases hs with
    | function hf =>
      unfold Stmt.resolve
      rw [hf.name]
      have hname := (h.declare definition.name).define definition.name
      exact definition.resolve_alike hids .function hf hname
  | ret keyword _ =>
    cases hs with
    | ret _ he =>
      have hkeyword := h.reportIf (w.body == .topLevel) keyword .returnOutsideFunction
      simp only [Stmt.resolve, h.body, hkeyword.body, isSome_of_rel he]
      exact resolveOption_alike hids he (hkeyword.reportIf _ keyword _)
  | brk keyword =>
    cases hs with
    | brk _ =>
      simp only [Stmt.resolve, h.loops]
      exact h.reportIf _ keyword _
  | classDef name _ methods =>
    cases hs with
    | classDef _ hparent hfs =>
      simp only [Stmt.resolve, h.classSort]
      have hclause := enterClass_alike hids name hparent h
      have hmethods := resolveMethods_alike hids methods hfs hclause
      exact leaveClass_alike hparent _ hmethods
termination_by structural s

theorem resolveStmts_alike (hids : OneToOne ids) (ss : List Stmt) {ss' : List Stmt} {w w' : Walk}
    (hss : List.Forall₂ (Stmt.Alike lines moved ids) ss ss') (h : w.Alike lines ids w') :
    (resolveStmts ss w).Alike lines ids (resolveStmts ss' w') := by
  cases ss with
  | nil => cases hss; exact h
  | cons s ss =>
    cases hss with
    | cons hs hss =>
      have hfirst := s.resolve_alike hids hs h
      exact (resolveStmts_alike hids ss hss hfirst :)
termination_by structural ss

theorem FunctionDef.resolve_alike (hids : OneToOne ids) (f : FunctionDef) {f' : FunctionDef}
    (sort : BodySort) {w w' : Walk} (hf : f.Alike lines moved ids f') (h : w.Alike lines ids w') :
    (f.resolve sort w).Alike lines ids (f'.resolve sort w') := by
  cases f with
  | mk _ params body =>
    cases hf with
    | mk _ _ hss =>
      have hentered := (h.inBody (rfl : sort = sort) (rfl : 0 = 0)).enterScope
      have hparams := resolveParams_alike params hentered
      have hbody := resolveStmts_alike hids body hss hparams
      exact hbody.leaveScope.inBody h.body h.loops
termination_by structural f

theorem resolveMethods_alike (hids : OneToOne ids) (fs : List FunctionDef) {fs' : List FunctionDef}
    {w w' : Walk} (hfs : List.Forall₂ (FunctionDef.Alike lines moved ids) fs fs')
    (h : w.Alike lines ids w') : (resolveMethods fs w).Alike lines ids (resolveMethods fs' w') := by
  cases fs with
  | nil => cases hfs; exact h
  | cons f fs =>
    cases hfs with
    | cons hf hfs =>
      simp only [resolveMethods, FunctionDef.isInitializer, hf.name, Token.down_lexeme]
      refine resolveMethods_alike hids fs hfs ?_
      exact f.resolve_alike hids _ hf h
termination_by structural fs

end

/-! ## Programs -/

/-- Resolving an alike program gives the same errors in other lines and the same distances. -/
structure Resolution.Alike (lines : Nat) (ids : RefId → RefId → Prop) (r r' : Resolution) :
    Prop where
  accepted : r'.accepted = r.accepted
  errors : r'.errors = r.errors.map (Error.down lines)
  distances : r.distances.Alike ids r'.distances

theorem resolveProgram_alike (hids : OneToOne ids) {program program' : List Stmt}
    {distances distances' : Distances}
    (hp : List.Forall₂ (Stmt.Alike lines moved ids) program program')
    (hd : distances.Alike ids distances') :
    (resolveProgram program distances).Alike lines ids (resolveProgram program' distances') := by
  have h := resolveStmts_alike hids program hp (Walk.Alike.start hd)
  refine ⟨congrArg (!·) h.failed, ?_, h.distances⟩
  simp only [resolveProgram, h.problems, Array.toList_map, List.map_map]
  rfl

end Lox
