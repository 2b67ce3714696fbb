import Lox.Proofs.Renaming.Trees
import Lox.Proofs.Scoping.Accepted

set_option autoImplicit false

/-! # Renaming keeps scopes apart

A name that does not occur in a program can take the place of another one in some of its scopes
without being taken for a name of other scopes. References are bound as far out as before
(`stmts_renamed_sites`), and no static rule is broken that was not broken before
(`staticViolations_renamed`), so that the program is still accepted, with the same distances
(`resolveProgram_renamed`). -/

namespace Lox

variable {ρ : Renaming} {marks : List Bool}

/-! ## Scopes -/

/-- Scopes in which the same variables are declared, some of them under the new name. -/
inductive Scopes.Renamed (ρ : Renaming) : List Bool → Scopes → Scopes → Prop
  | global : Scopes.Renamed ρ [false] [] []
  | cons {marked : Bool} {marks : List Bool} {s s' : OpenScope} {outer outer' : Scopes} :
      (∀ name, (s'.names.find? (ρ.key marked name)).isSome = (s.names.find? name).isSome) →
      s.names.find? ρ.new = none → Scopes.Renamed ρ marks outer outer' →
      Scopes.Renamed ρ (marked :: marks) (s :: outer) (s' :: outer')

namespace Scopes.Renamed

variable {scopes scopes' : Scopes} (h : scopes.Renamed ρ marks scopes')

include h

/-- A name is found as far out as before under the name that it has there. -/
theorem distance? {name : String} (hname : name ≠ ρ.new) :
    scopes'.distance?
        (ρ.key ((scopes.distance? name).any fun d => marks.getD d false) name) =
      scopes.distance? name := by
  unfold Scopes.distance?
  induction h with
  | global => rfl
  | @cons marked marks s s' outer outer' hnames hfresh _ ih =>
    rw [List.findIdx?_cons, List.findIdx?_cons]
    cases hfind : (s.names.find? name).isSome with
    | true =>
      have hfound : (s'.names.find? (ρ.key marked name)).isSome = true := (hnames name).trans hfind
      simp [hfound]
    | false =>
      -- the scope further out may call its variable what this one could call another
      have hmissing : ∀ marked', (s'.names.find? (ρ.key marked' name)).isSome = false := by
        intro marked'
        rw [← Renaming.key_key (ρ := ρ) marked (ρ.key marked' name), hnames]
        by_cases hback : ρ.key marked (ρ.key marked' name) = ρ.new
        · rw [hback, hfresh]
          rfl
        · rw [← Renaming.eq_of_key_eq hname hback
            (Renaming.key_key (ρ := ρ) marked (ρ.key marked' name)).symm]
          exact hfind
      simp only [Bool.false_eq_true, if_false, Option.any_map, List.getD_cons_succ, hmissing, ih]

theorem put {name : String} (hname : name ≠ ρ.new) (ready ready' : Bool) :
    (scopes.put name ready).Renamed ρ marks
      (scopes'.put (ρ.key (marks.headD false) name) ready') := by
  cases h with
  | global => exact .global
  | @cons marked _ _ _ _ _ hnames hfresh houter =>
    refine .cons (fun other => ?_) ?_ houter
    · rw [Bindings.find?_bind, Bindings.find?_bind]
      simp only [List.headD_cons, (ρ.key marked).injective.eq_iff]
      split
      · rfl
      · exact hnames other
    · rw [Bindings.find?_bind, if_neg hname.symm]
      exact hfresh

theorem put_other {name : String} (hother : ρ.Other (marks.headD false) name)
    (hname : name ≠ ρ.new) (ready ready' : Bool) :
    (scopes.put name ready).Renamed ρ marks (scopes'.put name ready') := by
  have hput := h.put hname ready ready'
  rwa [hother.key] at hput

/-- A scope of the language itself declares a name that no program chooses. -/
theorem cons_own {name : String} (hname : name ≠ ρ.new) (scope scope' : Scope) :
    Scopes.Renamed ρ (false :: marks) (⟨scope, [(name, true)]⟩ :: scopes)
      (⟨scope', [(name, true)]⟩ :: scopes') := by
  refine .cons (fun _ => rfl) ?_ h
  simp [Bindings.find?, hname]

end Scopes.Renamed

/-- The parameters of a function. -/
theorem renamed_params (marked : Bool) {ps : List Token} (hps : ∀ p ∈ ps, p.lexeme ≠ ρ.new)
    {names names' : DeclaredNames}
    (hnames : ∀ name, (names'.find? (ρ.key marked name)).isSome = (names.find? name).isSome)
    (hfresh : names.find? ρ.new = none) :
    (∀ name, (((ps.map (ρ.respell marked)).foldl (fun names p => names.bind p.lexeme true)
        names').find? (ρ.key marked name)).isSome =
      ((ps.foldl (fun names p => names.bind p.lexeme true) names).find? name).isSome) ∧
    (ps.foldl (fun names p => names.bind p.lexeme true) names).find? ρ.new = none := by
  induction ps generalizing names names' with
  | nil => exact ⟨hnames, hfresh⟩
  | cons p ps ih =>
    rw [List.forall_mem_cons] at hps
    refine ih hps.2 (fun name => ?_) ?_
    · dsimp only
      rw [Renaming.respell_lexeme fun _ => hps.1, Bindings.find?_bind, Bindings.find?_bind]
      simp only [(ρ.key marked).injective.eq_iff]
      split
      · rfl
      · exact hnames name
    · rw [Bindings.find?_bind, if_neg hps.1.symm]
      exact hfresh

/-! ## References -/

/-- The same reference, under the name that its variable has. -/
structure Reference.Renamed (ρ : Renaming) (marks : List Bool) (r r' : Reference) : Prop where
  id : r'.id = r.id
  name : r'.token.lexeme = ρ.key (ρ.refers marks r.id) r.token.lexeme

mutual

theorem Expr.renamed_references (e : Expr) {e' : Expr} (h : e.Renamed ρ marks e') :
    List.Forall₂ (Reference.Renamed ρ marks) e.references e'.references := by
  cases e with
  | literal _ => cases h; exact .nil
  | grouping inner => cases h with | grouping h => exact (inner.renamed_references h :)
  | unary _ right => cases h with | unary h => exact (right.renamed_references h :)
  | binary left _ right =>
    cases h with
    | binary hl hr =>
      have hleft := left.renamed_references hl
      have hright := right.renamed_references hr
      exact List.rel_append hleft hright
  | logical left _ right =>
    cases h with
    | logical hl hr =>
      have hleft := left.renamed_references hl
      have hright := right.renamed_references hr
      exact List.rel_append hleft hright
  | var _ _ =>
    cases h with | var ht => exact .cons ⟨rfl, Renaming.respell_lexeme ht⟩ .nil
  | assign _ _ value =>
    cases h with
    | assign ht hv => exact .cons ⟨rfl, Renaming.respell_lexeme ht⟩ (value.renamed_references hv)
  | call callee _ arguments =>
    cases h with
    | call hf hes =>
      have hcallee := callee.renamed_references hf
      have harguments := exprs_renamed_references arguments hes
      exact List.rel_append hcallee harguments
  | get object _ => cases h with | get h => exact (object.renamed_references h :)
  | set object _ value =>
    cases h with
    | set ho hv =>
      have hobject := object.renamed_references ho
      have hvalue := value.renamed_references hv
      exact List.rel_append hobject hvalue
  | thisRef _ _ => cases h with | thisRef ht => exact .cons ⟨rfl, ht.key.symm⟩ .nil
  | superRef _ _ _ => cases h with | superRef ht => exact .cons ⟨rfl, ht.key.symm⟩ .nil
termination_by structural e

theorem exprs_renamed_references (es : List Expr) {es' : List Expr}
    (h : List.Forall₂ (Expr.Renamed ρ marks) es es') :
    List.Forall₂ (Reference.Renamed ρ marks) (exprReferences es) (exprReferences es') := by
  cases es with
  | nil => cases h; exact .nil
  | cons e es =>
    cases h with
    | cons he hes =>
      have hfirst := e.renamed_references he
      exact List.rel_append hfirst (exprs_renamed_references es hes)
termination_by structural es

end

theorem option_renamed_references {e e' : Option Expr}
    (h : Option.Rel (Expr.Renamed ρ marks) e e') :
    List.Forall₂ (Reference.Renamed ρ marks) (optionReferences e) (optionReferences e') := by
  cases h with
  | none => exact .nil
  | some h => exact Expr.renamed_references _ h

/-! ## Sites -/

/-- The same reference, bound as far out. -/
structure Site.Renamed (site site' : Site) : Prop where
  id : site'.reference.id = site.reference.id
  distance : site'.distance? = site.distance?

/-- Each reference of some sites is recorded as far out as its name is declared. -/
def Recorded (ρ : Renaming) (sites : List Site) : Prop :=
  ∀ site ∈ sites, ρ.distances.get? site.reference.id = site.distance?

theorem recorded_append {sites sites' : List Site} :
    Recorded ρ (sites ++ sites') ↔ Recorded ρ sites ∧ Recorded ρ sites' :=
  List.forall_mem_append

theorem renamed_sitesAt {scopes scopes' : Scopes} (h : scopes.Renamed ρ marks scopes')
    {rs rs' : List Reference} (hrs : List.Forall₂ (Reference.Renamed ρ marks) rs rs')
    (hw : ∀ r ∈ rs, r.token.lexeme ≠ ρ.new) (hd : Recorded ρ (sitesAt scopes rs)) :
    List.Forall₂ Site.Renamed (sitesAt scopes rs) (sitesAt scopes' rs') := by
  induction hrs with
  | nil => exact .nil
  | @cons r r' rs rs' hr _ ih =>
    rw [List.forall_mem_cons] at hw
    have hd := List.forall_mem_cons.1 hd
    refine .cons ⟨hr.id, ?_⟩ (ih hw.2 hd.2)
    have hdistance : ρ.distances.get? r.id = scopes.distance? r.token.lexeme := hd.1
    show scopes'.distance? r'.token.lexeme = scopes.distance? r.token.lexeme
    rw [hr.name, Renaming.refers, hdistance, h.distance? hw.1]

theorem ids_of_renamed_sites {sites sites' : List Site}
    (h : List.Forall₂ Site.Renamed sites sites') :
    (sites'.map Site.reference).map Reference.id = (sites.map Site.reference).map Reference.id := by
  induction h with
  | nil => rfl
  | cons hsite _ ih =>
    simp only [List.map_cons, hsite.id]
    exact congrArg _ ih

theorem exists_renamed_site {sites sites' : List Site} (h : List.Forall₂ Site.Renamed sites sites')
    {site' : Site} (hmem : site' ∈ sites') : ∃ site ∈ sites, Site.Renamed site site' := by
  induction h with
  | nil => cases hmem
  | cons hsite _ ih =>
    rcases List.mem_cons.1 hmem with rfl | hmem
    · exact ⟨_, List.mem_cons_self, hsite⟩
    · obtain ⟨site, hin, hsame⟩ := ih hmem
      exact ⟨site, List.mem_cons_of_mem _ hin, hsame⟩

theorem FunctionDef.scope_renamed {scopes scopes' : Scopes} (h : scopes.Renamed ρ marks scopes')
    (marked : Bool) {name : Token} {ps : List Token} (hps : ∀ p ∈ ps, p.lexeme ≠ ρ.new)
    (body body' : List Stmt) :
    Scopes.Renamed ρ (marked :: marks) (FunctionDef.scope ⟨name, ps, body⟩ :: scopes)
      (FunctionDef.scope ⟨name, ps.map (ρ.respell marked), body'⟩ :: scopes') := by
  obtain ⟨hnames, hfresh⟩ := @renamed_params ρ marked ps hps [] [] (fun _ => rfl) rfl
  exact .cons hnames hfresh h

/-- Statements declare the same variables in the scope in which they stand. -/
theorem Stmt.Renamed.after {s s' : Stmt} (hs : s.Renamed ρ marks s')
    (hw : s.Written (·.lexeme ≠ ρ.new)) {scopes scopes' : Scopes}
    (h : scopes.Renamed ρ marks scopes') :
    (s.after scopes).Renamed ρ marks (s'.after scopes') := by
  cases hs with
  | var ht _ =>
    rw [Stmt.after, Stmt.after, Renaming.respell_lexeme ht]
    exact h.put hw.1 true true
  | function hother hf =>
    rw [Stmt.after, Stmt.after, hf.name]
    exact h.put_other hother (FunctionDef.Written.name hw) true true
  | plainClass hother _ => exact h.put_other hother hw.1 true true
  | derivedClass hother _ _ => exact h.put_other hother hw.1 true true
  | _ => exact h

mutual

theorem Stmt.renamed_sites (hnew : Chosen ρ.new) (s : Stmt) {s' : Stmt} {marks : List Bool}
    {scopes scopes' : Scopes} (hs : s.Renamed ρ marks s') (hw : s.Written (·.lexeme ≠ ρ.new))
    (h : scopes.Renamed ρ marks scopes') (hd : Recorded ρ (s.sites scopes)) :
    List.Forall₂ Site.Renamed (s.sites scopes) (s'.sites scopes') := by
  cases s with
  | expression value | print value =>
    cases hs with
    | _ he =>
      have hvalue := value.renamed_references he
      exact renamed_sitesAt h hvalue (Expr.Written.references hw) hd
  | var name initializer =>
    cases hs with
    | var ht he =>
      have hdeclared := h.put hw.1 false false
      have hvalue := option_renamed_references he
      rw [Stmt.sites, Stmt.sites, Renaming.respell_lexeme ht]
      exact renamed_sitesAt hdeclared hvalue (optionWritten_references hw.2) hd
  | block body =>
    cases hs with
    | block marked hss =>
      refine stmts_renamed_sites hnew body hss hw ?_ hd
      exact .cons (fun _ => rfl) rfl h
  | ifElse condition thenBranch elseBranch? =>
    cases elseBranch? with
    | none =>
      cases hs with
      | ifOnly hc ht =>
        rw [Stmt.sites, recorded_append] at hd
        have hcondition :=
          renamed_sitesAt h (condition.renamed_references hc) hw.1.references hd.1
        have hthen := thenBranch.renamed_sites hnew ht hw.2 h hd.2
        exact List.rel_append hcondition hthen
    | some elseBranch =>
      cases hs with
      | ifElse hc ht ho =>
        rw [Stmt.sites, recorded_append, recorded_append] at hd
        have hcondition :=
          renamed_sitesAt h (condition.renamed_references hc) hw.1.references hd.1.1
        have hthen := thenBranch.renamed_sites hnew ht hw.2.1 h hd.1.2
        have helse := elseBranch.renamed_sites hnew ho hw.2.2 h hd.2
        exact List.rel_append (List.rel_append hcondition hthen) helse
  | loop condition body =>
    cases hs with
    | loop hc hb =>
      rw [Stmt.sites, recorded_append] at hd
      have hcondition :=
        renamed_sitesAt h (condition.renamed_references hc) hw.1.references hd.1
      have hbody := body.renamed_sites hnew hb hw.2 h hd.2
      exact List.rel_append hcondition hbody
  | function definition =>
    cases hs with
    | function hother hf =>
      rw [Stmt.sites, Stmt.sites, hf.name]
      refine definition.renamed_sites hnew hf hw ?_ hd
      exact h.put_other hother (FunctionDef.Written.name hw) _ _
  | ret _ value =>
    cases hs with
    | ret he =>
      have hvalue := option_renamed_references he
      exact renamed_sitesAt h hvalue (optionWritten_references hw.2) hd
  | brk _ => cases hs; exact .nil
  | classDef name superclass methods =>
    cases superclass with
    | none =>
      cases hs with
      | plainClass hother hfs =>
        refine methods_renamed_sites hnew methods hfs hw.2.2 ?_ hd
        exact h.put_other hother hw.1 _ _
    | some clause =>
      obtain ⟨id, parent⟩ := clause
      cases hs with
      | derivedClass hother ht hfs =>
        obtain ⟨hdistance, hd⟩ := List.forall_mem_cons.1 hd
        have hparent : parent.lexeme ≠ ρ.new := hw.2.1 _ rfl
        have hreference : Reference.Renamed ρ marks ⟨.superclass, id, parent⟩
            ⟨.superclass, id, ρ.respell (ρ.refers marks id) parent⟩ :=
          ⟨rfl, Renaming.respell_lexeme ht⟩
        have hclause := renamed_sitesAt (h.put_other hother hw.1 false false)
          (.cons hreference .nil) (List.forall_mem_singleton.2 hparent)
          (List.forall_mem_singleton.2 hdistance)
        refine List.rel_append hclause ?_
        refine methods_renamed_sites hnew methods hfs hw.2.2 ?_ hd
        exact (h.put_other hother hw.1 _ _).cons_own hnew.2.symm _ _
termination_by structural s

theorem stmts_renamed_sites (hnew : Chosen ρ.new) (ss : List Stmt) {ss' : List Stmt}
    {marks : List Bool} {scopes scopes' : Scopes} (hss : StmtsRenamed ρ marks ss ss')
    (hw : StmtsWritten (·.lexeme ≠ ρ.new) ss) (h : scopes.Renamed ρ marks scopes')
    (hd : Recorded ρ (stmtSites scopes ss)) :
    List.Forall₂ Site.Renamed (stmtSites scopes ss) (stmtSites scopes' ss') := by
  cases ss with
  | nil => cases hss; exact .nil
  | cons s ss =>
    cases hss with
    | cons hs hss =>
      rw [stmtSites, recorded_append] at hd
      have hfirst := s.renamed_sites hnew hs hw.1 h hd.1
      have hrest := stmts_renamed_sites hnew ss hss hw.2 (hs.after hw.1 h) hd.2
      exact List.rel_append hfirst hrest
termination_by structural ss

theorem FunctionDef.renamed_sites (hnew : Chosen ρ.new) (f : FunctionDef) {f' : FunctionDef}
    {marks : List Bool} {scopes scopes' : Scopes} (hf : f.Renamed ρ marks f')
    (hw : f.Written (·.lexeme ≠ ρ.new)) (h : scopes.Renamed ρ marks scopes')
    (hd : Recorded ρ (f.sites scopes)) :
    List.Forall₂ Site.Renamed (f.sites scopes) (f'.sites scopes') := by
  cases f with
  | mk _ _ body =>
    cases hf with
    | mk marked _ hss =>
      refine stmts_renamed_sites hnew body hss hw.2.2 ?_ hd
      exact FunctionDef.scope_renamed h marked hw.2.1 _ _
termination_by structural f

theorem methods_renamed_sites (hnew : Chosen ρ.new) (fs : List FunctionDef) {fs' : List FunctionDef}
    {marks : List Bool} {scopes scopes' : Scopes} (hfs : MethodsRenamed ρ (false :: marks) fs fs')
    (hw : MethodsWritten (·.lexeme ≠ ρ.new) fs) (h : scopes.Renamed ρ marks scopes')
    (hd : Recorded ρ (methodSites scopes fs)) :
    List.Forall₂ Site.Renamed (methodSites scopes fs) (methodSites scopes' fs') := by
  cases fs with
  | nil => cases hfs; exact .nil
  | cons f fs =>
    cases hfs with
    | cons hf hfs =>
      rw [methodSites, recorded_append] at hd
      refine List.rel_append ?_ (methods_renamed_sites hnew fs hfs hw.2 h hd.2)
      exact f.renamed_sites hnew hf hw.1 (h.cons_own hnew.1.symm _ _) hd.1
termination_by structural fs

end

/-! ## Static rules -/

/-- What is around a point, under the names that the variables have. -/
structure Surroundings.Renamed (ρ : Renaming) (marks : List Bool) (around around' : Surroundings) :
    Prop where
  body : around'.body = around.body
  classSort : around'.classSort = around.classSort
  inLoop : around'.inLoop = around.inLoop
  names : around'.names = around.names.map fun names => names.map (ρ.key (marks.headD false))
  initializing : around'.initializing = around.initializing.map (ρ.key (marks.headD false))
  fresh : ∀ name ∈ around.initializing, name ≠ ρ.new

namespace Surroundings.Renamed

variable {around around' : Surroundings} (h : around.Renamed ρ marks around')

include h

theorem has (name : String) :
    around'.has (ρ.key (marks.headD false) name) = around.has name := by
  rw [Surroundings.has, Surroundings.has, h.names]
  cases around.names with
  | none => rfl
  | some names =>
    simp only [Option.map_some, Option.any_some]
    rw [Bool.eq_iff_iff, List.contains_iff_mem, List.contains_iff_mem,
      List.mem_map_of_injective (ρ.key _).injective]

theorem behind {names names' : List String}
    (hnames : names' = names.map (ρ.key (marks.headD false))) :
    (around.behind names).Renamed ρ marks (around'.behind names') := by
  refine { h with names := ?_ }
  simp only [Surroundings.behind, h.names, hnames]
  cases around.names <;> simp

/-- In a new scope nothing is declared. -/
theorem enter (hinit : around.initializing = none) (marked : Bool) (marks' : List Bool) :
    { around with names := some [] }.Renamed ρ (marked :: marks')
      { around' with names := some [] } := by
  refine { h with names := rfl, initializing := ?_ }
  rw [h.initializing, hinit]
  rfl

end Surroundings.Renamed

/-- Where no rule was broken, none is. -/
def Occurrence.Renamed (o o' : Occurrence) : Prop := o.violation? = none → o'.violation? = none

theorem violations_renamed {os os' : List Occurrence} (h : List.Forall₂ Occurrence.Renamed os os')
    (hos : violations os = []) : violations os' = [] := by
  rw [violations, List.filterMap_eq_nil_iff] at hos ⊢
  induction h with
  | nil => exact List.forall_mem_nil _
  | cons ho _ ih =>
    rw [List.forall_mem_cons] at hos
    exact List.forall_mem_cons.2 ⟨ho hos.1, ih hos.2⟩

theorem superclass_renamed {around around' : Surroundings} {name name' className : Token}
    (hw : name.lexeme ≠ ρ.new) (hclass : className.lexeme ≠ ρ.new) {marked : Bool}
    (hname : name'.lexeme = ρ.key marked name.lexeme) :
    Occurrence.Renamed ⟨.superclass name className, around⟩
      ⟨.superclass name' className, around'⟩ := by
  intro hnone
  have hne : name.lexeme ≠ className.lexeme := by
    intro heq
    simp [Occurrence.violation?, heq] at hnone
  have hstill : name'.lexeme ≠ className.lexeme := by
    intro heq
    have hkey : ρ.key marked name.lexeme = ρ.key false className.lexeme := hname.symm.trans heq
    exact hne (Renaming.eq_of_key_eq hw hclass hkey)
  rw [Occurrence.violation?, if_neg hstill]

section

variable {around around' : Surroundings} (h : around.Renamed ρ marks around')

include h

theorem declaration_renamed {name name' : Token}
    (hname : name'.lexeme = ρ.key (marks.headD false) name.lexeme) :
    Occurrence.Renamed ⟨.declaration name, around⟩ ⟨.declaration name', around'⟩ := by
  intro hnone
  rw [Occurrence.violation?] at hnone ⊢
  rw [hname, h.has]
  cases hhas : around.has name.lexeme with
  | false => rfl
  | true =>
    rw [hhas] at hnone
    cases hnone

/-- A variable that is not being declared is not taken for one that is. -/
theorem read_renamed {name name' : Token} (hw : name.lexeme ≠ ρ.new) {marked : Bool}
    (hname : name'.lexeme = ρ.key marked name.lexeme) :
    Occurrence.Renamed ⟨.read name, around⟩ ⟨.read name', around'⟩ := by
  intro hnone
  have hfine : around.initializes name.lexeme = false := by
    by_contra hbad
    simp [Occurrence.violation?, hbad] at hnone
  have hstill : around'.initializes name'.lexeme = false := by
    by_contra hbad
    simp only [Surroundings.initializes, Bool.not_eq_false, Bool.and_eq_true, beq_iff_eq,
      Bool.not_eq_true'] at hbad
    obtain ⟨⟨hlocal, hinitializing⟩, hfree⟩ := hbad
    rw [h.initializing, Option.map_eq_some_iff] at hinitializing
    obtain ⟨v, hv, hkey⟩ := hinitializing
    obtain rfl := Renaming.eq_of_key_eq (h.fresh v hv) hw (hkey.trans hname)
    rw [← hkey, h.has] at hfree
    rw [h.names, Option.isSome_map] at hlocal
    simp [Surroundings.initializes, hlocal, hv, hfree] at hfine
  rw [Occurrence.violation?, hstill]
  rfl

theorem same_renamed {c : Construct}
    (hc : ∀ o o' : Surroundings, o'.body = o.body → o'.classSort = o.classSort →
      o'.inLoop = o.inLoop → Occurrence.violation? ⟨c, o'⟩ = Occurrence.violation? ⟨c, o⟩) :
    Occurrence.Renamed ⟨c, around⟩ ⟨c, around'⟩ := fun hnone =>
  (hc around around' h.body h.classSort h.inLoop).trans hnone

end

mutual

theorem Expr.renamed_occurrences {around around' : Surroundings} (h : around.Renamed ρ marks around')
    (e : Expr) {e' : Expr} (he : e.Renamed ρ marks e') (hw : e.Written (·.lexeme ≠ ρ.new)) :
    List.Forall₂ Occurrence.Renamed (occurrencesAt around e.constructs)
      (occurrencesAt around' e'.constructs) := by
  cases e with
  | literal _ => cases he; exact .nil
  | grouping inner =>
    cases he with | grouping he => exact (inner.renamed_occurrences h he hw :)
  | unary _ right =>
    cases he with | unary he => exact (right.renamed_occurrences h he hw.2 :)
  | binary left _ right =>
    cases he with
    | binary hl hr =>
      have hleft := left.renamed_occurrences h hl hw.2.1
      have hright := right.renamed_occurrences h hr hw.2.2
      simp only [Expr.constructs, occurrencesAt_append]
      exact List.rel_append hleft hright
  | logical left _ right =>
    cases he with
    | logical hl hr =>
      have hleft := left.renamed_occurrences h hl hw.2.1
      have hright := right.renamed_occurrences h hr hw.2.2
      simp only [Expr.constructs, occurrencesAt_append]
      exact List.rel_append hleft hright
  | var _ name =>
    cases he with
    | var ht => exact .cons (read_renamed h hw (Renaming.respell_lexeme ht)) .nil
  | assign _ _ value =>
    cases he with | assign _ hv => exact (value.renamed_occurrences h hv hw.2 :)
  | call callee _ arguments =>
    cases he with
    | call hf hes =>
      have hcallee := callee.renamed_occurrences h hf hw.2.1
      have harguments := exprs_renamed_occurrences h arguments hes hw.2.2
      simp only [Expr.constructs, occurrencesAt_append]
      exact List.rel_append hcallee harguments
  | get object _ =>
    cases he with | get he => exact (object.renamed_occurrences h he hw.2 :)
  | set object _ value =>
    cases he with
    | set ho hv =>
      have hvalue := value.renamed_occurrences h hv hw.2.2
      have hobject := object.renamed_occurrences h ho hw.2.1
      simp only [Expr.constructs, occurrencesAt_append]
      exact List.rel_append hvalue hobject
  | thisRef _ keyword =>
    cases he
    refine .cons (same_renamed h fun o o' _ hsort _ => ?_) .nil
    simp only [Occurrence.violation?, hsort]
  | superRef _ keyword _ =>
    cases he
    refine .cons (same_renamed h fun o o' _ hsort _ => ?_) .nil
    simp only [Occurrence.violation?, hsort]
termination_by structural e

theorem exprs_renamed_occurrences {around around' : Surroundings} (h : around.Renamed ρ marks around')
    (es : List Expr) {es' : List Expr} (hes : List.Forall₂ (Expr.Renamed ρ marks) es es')
    (hw : ExprsWritten (·.lexeme ≠ ρ.new) es) :
    List.Forall₂ Occurrence.Renamed (occurrencesAt around (exprConstructs es))
      (occurrencesAt around' (exprConstructs es')) := by
  cases es with
  | nil => cases hes; exact .nil
  | cons e es =>
    cases hes with
    | cons he hes =>
      have hfirst := e.renamed_occurrences h he hw.1
      have hrest := exprs_renamed_occurrences h es hes hw.2
      simp only [exprConstructs, occurrencesAt_append]
      exact List.rel_append hfirst hrest
termination_by structural es

end

theorem option_renamed_occurrences {around around' : Surroundings}
    (h : around.Renamed ρ marks around') {e e' : Option Expr}
    (he : Option.Rel (Expr.Renamed ρ marks) e e') (hw : OptionWritten (·.lexeme ≠ ρ.new) e) :
    List.Forall₂ Occurrence.Renamed (occurrencesAt around (optionConstructs e))
      (occurrencesAt around' (optionConstructs e')) := by
  cases he with
  | none => exact .nil
  | some he => exact Expr.renamed_occurrences h _ he hw

theorem paramOccurrences_renamed (marked : Bool) (ps : List Token) {around around' : Surroundings}
    (h : around.Renamed ρ (marked :: marks) around') (hps : ∀ p ∈ ps, p.lexeme ≠ ρ.new) :
    List.Forall₂ Occurrence.Renamed (paramOccurrences around ps)
      (paramOccurrences around' (ps.map (ρ.respell marked))) := by
  induction ps generalizing around around' with
  | nil => exact .nil
  | cons p ps ih =>
    rw [List.forall_mem_cons] at hps
    have hname : (ρ.respell marked p).lexeme = ρ.key marked p.lexeme :=
      Renaming.respell_lexeme fun _ => hps.1
    have hbehind : [(ρ.respell marked p).lexeme] = [p.lexeme].map (ρ.key marked) := by
      rw [hname]
      rfl
    exact .cons (declaration_renamed h hname) (ih (h.behind hbehind) hps.2)

/-- Statements declare the same names, some of them under the new name. -/
theorem Stmt.Renamed.declared (s : Stmt) {s' : Stmt} (hs : s.Renamed ρ marks s') :
    s'.declared = s.declared.map (ρ.key (marks.headD false)) := by
  cases s with
  | var _ _ =>
    cases hs with | var ht _ => exact congrArg (fun name => [name]) (Renaming.respell_lexeme ht)
  | function _ =>
    cases hs with
    | function hother hf =>
      rw [Stmt.declared, Stmt.declared, hf.name]
      exact congrArg (fun name => [name]) hother.key.symm
  | classDef _ _ _ =>
    cases hs with
    | plainClass hother _ | derivedClass hother _ _ =>
      exact congrArg (fun name => [name]) hother.key.symm
  | ifElse _ thenBranch elseBranch? =>
    cases elseBranch? with
    | none =>
      cases hs with | ifOnly _ ht => exact (Stmt.Renamed.declared thenBranch ht :)
    | some elseBranch =>
      cases hs with
      | ifElse _ ht ho =>
        simp only [Stmt.declared, List.map_append, Stmt.Renamed.declared thenBranch ht,
          Stmt.Renamed.declared elseBranch ho]
  | loop _ body =>
    cases hs with | loop _ hb => exact (Stmt.Renamed.declared body hb :)
  | expression _ | print _ | block _ | ret _ _ | brk _ => cases hs; rfl
termination_by structural s

mutual

theorem Stmt.renamed_occurrences (s : Stmt) {s' : Stmt} {marks : List Bool}
    {around around' : Surroundings} (hs : s.Renamed ρ marks s') (hw : s.Written (·.lexeme ≠ ρ.new))
    (h : around.Renamed ρ marks around') (hinit : around.initializing = none) :
    List.Forall₂ Occurrence.Renamed (s.occurrences around) (s'.occurrences around') := by
  cases s with
  | expression value =>
    cases hs with | expression he => exact value.renamed_occurrences h he hw
  | print value =>
    cases hs with | print he => exact value.renamed_occurrences h he hw
  | var name initializer =>
    cases hs with
    | var ht he =>
      have hname := Renaming.respell_lexeme ht
      refine .cons (declaration_renamed h hname) (option_renamed_occurrences ?_ he hw.2)
      refine { h with initializing := ?_, fresh := fun v hv => ?_ }
      · exact congrArg some hname
      · cases hv
        exact hw.1
  | block body =>
    cases hs with
    | block marked hss =>
      exact stmts_renamed_occurrences body hss hw (h.enter hinit marked _) hinit
  | ifElse condition thenBranch elseBranch? =>
    cases elseBranch? with
    | none =>
      cases hs with
      | ifOnly hc ht =>
        have hcondition := condition.renamed_occurrences h hc hw.1
        have hthen := thenBranch.renamed_occurrences ht hw.2 h hinit
        exact List.rel_append hcondition hthen
    | some elseBranch =>
      cases hs with
      | ifElse hc ht ho =>
        have hcondition := condition.renamed_occurrences h hc hw.1
        have hthen := thenBranch.renamed_occurrences ht hw.2.1 h hinit
        have helse := elseBranch.renamed_occurrences ho hw.2.2 (h.behind ht.declared) hinit
        exact List.rel_append (List.rel_append hcondition hthen) helse
  | loop condition body =>
    cases hs with
    | loop hc hb =>
      have hinside : { around with inLoop := true }.Renamed ρ _ { around' with inLoop := true } :=
        { h with inLoop := rfl }
      have hcondition := condition.renamed_occurrences h hc hw.1
      have hbody := body.renamed_occurrences hb hw.2 hinside hinit
      exact List.rel_append hcondition hbody
  | function definition =>
    cases hs with
    | function hother hf =>
      have hbody := definition.renamed_occurrences .function hf hw h hinit
      refine .cons (declaration_renamed h ?_) hbody
      rw [hf.name, hother.key]
  | ret keyword value =>
    cases hs with
    | ret he =>
      have hvalue := option_renamed_occurrences h he hw.2
      rw [Stmt.occurrences, Stmt.occurrences, isSome_of_rel he]
      refine .cons (same_renamed h fun o o' hbody _ _ => ?_) hvalue
      simp only [Occurrence.violation?, hbody]
  | brk keyword =>
    cases hs
    refine .cons (same_renamed h fun o o' _ _ hloop => ?_) .nil
    simp only [Occurrence.violation?, hloop]
  | classDef name superclass methods =>
    cases superclass with
    | none =>
      cases hs with
      | plainClass hother hfs =>
        have hinside : { around with classSort := .plain }.Renamed ρ _
            { around' with classSort := .plain } := { h with classSort := rfl }
        have hmethods := methods_renamed_occurrences methods hfs hw.2.2 hinside hinit
        exact .cons (declaration_renamed h hother.key.symm) hmethods
    | some clause =>
      obtain ⟨id, parent⟩ := clause
      cases hs with
      | derivedClass hother ht hfs =>
        have hinside : { around with classSort := .derived }.Renamed ρ _
            { around' with classSort := .derived } := { h with classSort := rfl }
        have hmethods := methods_renamed_occurrences methods hfs hw.2.2 hinside hinit
        refine .cons (declaration_renamed h hother.key.symm) (.cons ?_ hmethods)
        exact superclass_renamed (hw.2.1 _ rfl) hw.1 (Renaming.respell_lexeme ht)
termination_by structural s

theorem stmts_renamed_occurrences (ss : List Stmt) {ss' : List Stmt} {marks : List Bool}
    {around around' : Surroundings} (hss : StmtsRenamed ρ marks ss ss')
    (hw : StmtsWritten (·.lexeme ≠ ρ.new) ss) (h : around.Renamed ρ marks around')
    (hinit : around.initializing = none) :
    List.Forall₂ Occurrence.Renamed (stmtOccurrences around ss) (stmtOccurrences around' ss') := by
  cases ss with
  | nil => cases hss; exact .nil
  | cons s ss =>
    cases hss with
    | cons hs hss =>
      have hfirst := s.renamed_occurrences hs hw.1 h hinit
      have hrest := stmts_renamed_occurrences ss hss hw.2 (h.behind hs.declared) hinit
      exact List.rel_append hfirst hrest
termination_by structural ss

theorem FunctionDef.renamed_occurrences (f : FunctionDef) (sort : BodySort) {f' : FunctionDef}
    {marks marks' : List Bool} {around around' : Surroundings} (hf : f.Renamed ρ marks' f')
    (hw : f.Written (·.lexeme ≠ ρ.new)) (h : around.Renamed ρ marks around')
    (hinit : around.initializing = none) :
    List.Forall₂ Occurrence.Renamed (f.occurrences around sort) (f'.occurrences around' sort) := by
  cases f with
  | mk _ params body =>
    cases hf with
    | mk marked hparams hss =>
      have hinside : (around.within sort).Renamed ρ (marked :: marks') (around'.within sort) :=
        { h.enter hinit marked _ with body := rfl, inLoop := rfl }
      have hparams' := paramOccurrences_renamed marked params hinside hw.2.1
      refine List.rel_append hparams' ?_
      refine stmts_renamed_occurrences body hss hw.2.2 (hinside.behind ?_) hinit
      rw [List.map_map, List.map_map]
      exact List.map_congr_left fun p hp => Renaming.respell_lexeme (hparams p hp)
termination_by structural f

theorem methods_renamed_occurrences (fs : List FunctionDef) {fs' : List FunctionDef}
    {marks marks' : List Bool} {around around' : Surroundings}
    (hfs : MethodsRenamed ρ marks' fs fs') (hw : MethodsWritten (·.lexeme ≠ ρ.new) fs)
    (h : around.Renamed ρ marks around') (hinit : around.initializing = none) :
    List.Forall₂ Occurrence.Renamed (methodOccurrences around fs) (methodOccurrences around' fs') := by
  cases fs with
  | nil => cases hfs; exact .nil
  | cons f fs =>
    cases hfs with
    | cons hf hfs =>
      rw [methodOccurrences, methodOccurrences, hf.isInitializer]
      have hrest := methods_renamed_occurrences fs hfs hw.2 h hinit
      exact List.rel_append (f.renamed_occurrences _ hf hw.1 h hinit) hrest
termination_by structural fs

end

/-! ## Programs -/

section

variable {program program' : List Stmt} (hnew : Chosen ρ.new)
  (h : StmtsRenamed ρ [false] program program') (hw : StmtsWritten (·.lexeme ≠ ρ.new) program)

include h hw

theorem staticViolations_renamed (hv : staticViolations program = []) :
    staticViolations program' = [] :=
  violations_renamed (stmts_renamed_occurrences program h hw
    ⟨rfl, rfl, rfl, rfl, rfl, fun _ hname => by cases hname⟩ rfl) hv

include hnew

/-- A program with a renamed variable is accepted, with the same distances. -/
theorem resolveProgram_renamed {distances : Distances} (hp : ProperStmts program)
    (hp' : ProperStmts program') (hnodup : ((stmtReferences program).map Reference.id).Nodup)
    (hfresh : ∀ r ∈ stmtReferences program, distances.get? r.id = none)
    (haccepted : (resolveProgram program distances).errors = [])
    (hρ : ρ.distances = (resolveProgram program distances).distances) :
    (resolveProgram program' distances).errors = [] ∧
      ∀ id, (resolveProgram program' distances).distances.get? id = ρ.distances.get? id := by
  have haccepted' : (resolveProgram program' distances).errors = [] :=
    staticViolations_eq_nil_iff.1 (staticViolations_renamed h hw
      (staticViolations_eq_nil_iff.2 haccepted))
  obtain ⟨hright, -⟩ := right_and_checked_of_resolveProgram hp hnodup hfresh haccepted
  have hsites : List.Forall₂ Site.Renamed (stmtSites [] program) (stmtSites [] program') :=
    stmts_renamed_sites hnew program h hw .global fun site hsite =>
      hρ ▸ (hright site hsite).1.distance
  have hids := ids_of_renamed_sites hsites
  rw [map_reference_stmtSites, map_reference_stmtSites] at hids
  have hfresh' : ∀ r' ∈ stmtReferences program', distances.get? r'.id = none := by
    intro r' hr'
    obtain ⟨r, hr, hid⟩ := List.mem_map.1 (hids ▸ List.mem_map_of_mem hr')
    exact hid ▸ hfresh r hr
  obtain ⟨hright', -⟩ :=
    right_and_checked_of_resolveProgram hp' (hids.symm ▸ hnodup) hfresh' haccepted'
  refine ⟨haccepted', fun id => ?_⟩
  rw [hρ]
  by_cases hmem : id ∈ (stmtReferences program').map Reference.id
  · rw [← map_reference_stmtSites program' [], List.map_map] at hmem
    obtain ⟨site', hsite', rfl⟩ := List.mem_map.1 hmem
    obtain ⟨site, hsite, hsame⟩ := exists_renamed_site hsites hsite'
    calc (resolveProgram program' distances).distances.get? site'.reference.id
      _ = site'.distance? := (hright' site' hsite').1.distance
      _ = site.distance? := hsame.distance
      _ = (resolveProgram program distances).distances.get? site.reference.id :=
        (hright site hsite).1.distance.symm
      _ = _ := congrArg _ hsame.id.symm
  · rw [get?_resolveProgram program' distances hmem, get?_resolveProgram program distances]
    rwa [← hids]

end

end Lox
