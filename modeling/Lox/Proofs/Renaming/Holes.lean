import Lox.Proofs.Renaming.Trees
import Mathlib.Data.List.Nodup
import Mathlib.Data.List.Perm.Basic

set_option autoImplicit false

/-! # A program with a renamed variable

Renaming a variable of a scope is right only if it is the variable that the name stands for there: a
function or a class of the scope could have the same name. In a program that breaks no static rule
this cannot be, since no scope declares a name twice. Then the program with the renamed scope in its
place is what becomes of the program where only this scope is marked (`renamed_of_mem_holes`). -/

namespace Lox

variable {ρ : Renaming} {depth : Nat} {marks : List Bool}

/-! ## The scope itself -/

theorem Renaming.other_of_spelled (hold : Chosen ρ.old) {r : Reference} (hr : r.Spelled)
    (hsort : r.sort = .this ∨ r.sort = .super) (hnew : r.token.lexeme ≠ ρ.new) (marked : Bool) :
    ρ.Other marked r.token.lexeme := by
  refine fun _ => ⟨fun heq => ?_, hnew⟩
  rcases hsort with hsort | hsort
  · simp only [Reference.Spelled, hsort] at hr
    exact hold.1 (heq.symm.trans hr)
  · simp only [Reference.Spelled, hsort] at hr
    exact hold.2 (heq.symm.trans hr)

mutual

theorem Expr.renamed_rename (hold : Chosen ρ.old) (h : MarkedAt depth marks) (e : Expr)
    (hs : ∀ r ∈ e.references, r.Spelled) (hw : e.Written (·.lexeme ≠ ρ.new)) :
    e.Renamed ρ marks (e.rename ρ depth) := by
  cases e with
  | literal value => exact .literal value
  | grouping inner => exact .grouping (inner.renamed_rename hold h hs hw)
  | unary _ right => exact .unary (right.renamed_rename hold h hs hw.2)
  | binary left _ right =>
    rw [Expr.references, List.forall_mem_append] at hs
    have hleft := left.renamed_rename hold h hs.1 hw.2.1
    have hright := right.renamed_rename hold h hs.2 hw.2.2
    exact .binary hleft hright
  | logical left _ right =>
    rw [Expr.references, List.forall_mem_append] at hs
    have hleft := left.renamed_rename hold h hs.1 hw.2.1
    have hright := right.renamed_rename hold h hs.2 hw.2.2
    exact .logical hleft hright
  | var id name =>
    rw [Expr.rename, Renaming.referred, ← h.refers]
    exact .var fun _ => hw
  | assign id name value =>
    rw [Expr.references, List.forall_mem_cons] at hs
    have hvalue := value.renamed_rename hold h hs.2 hw.2
    rw [Expr.rename, Renaming.referred, ← h.refers]
    exact .assign (fun _ => hw.1) hvalue
  | call callee _ arguments =>
    rw [Expr.references, List.forall_mem_append] at hs
    have hcallee := callee.renamed_rename hold h hs.1 hw.2.1
    have harguments := exprs_renamed_rename hold h arguments hs.2 hw.2.2
    exact .call hcallee harguments
  | get object _ => exact .get (object.renamed_rename hold h hs hw.2)
  | set object _ value =>
    rw [Expr.references, List.forall_mem_append] at hs
    have hobject := object.renamed_rename hold h hs.1 hw.2.1
    have hvalue := value.renamed_rename hold h hs.2 hw.2.2
    exact .set hobject hvalue
  | thisRef _ keyword =>
    have hspelled := hs _ List.mem_cons_self
    exact .thisRef (Renaming.other_of_spelled hold hspelled (.inl rfl) hw _)
  | superRef _ keyword _ =>
    have hspelled := hs _ List.mem_cons_self
    exact .superRef (Renaming.other_of_spelled hold hspelled (.inr rfl) hw.1 _)
termination_by structural e

theorem exprs_renamed_rename (hold : Chosen ρ.old) (h : MarkedAt depth marks) (es : List Expr)
    (hs : ∀ r ∈ exprReferences es, r.Spelled) (hw : ExprsWritten (·.lexeme ≠ ρ.new) es) :
    List.Forall₂ (Expr.Renamed ρ marks) es (renameExprs ρ depth es) := by
  cases es with
  | nil => exact .nil
  | cons e es =>
    rw [exprReferences, List.forall_mem_append] at hs
    have hfirst := e.renamed_rename hold h hs.1 hw.1
    exact .cons hfirst (exprs_renamed_rename hold h es hs.2 hw.2)
termination_by structural es

end

theorem option_renamed_rename (hold : Chosen ρ.old) (h : MarkedAt depth marks) (e : Option Expr)
    (hs : ∀ r ∈ optionReferences e, r.Spelled) (hw : OptionWritten (·.lexeme ≠ ρ.new) e) :
    Option.Rel (Expr.Renamed ρ marks) e (e.map (Expr.rename ρ depth)) := by
  cases e with
  | none => exact .none
  | some e => exact .some (e.renamed_rename hold h hs hw)

/-- The names of the functions and classes that a statement declares where it stands. -/
def Stmt.constants : Stmt → List String
  | .function definition => [definition.name.lexeme]
  | .classDef name _ _ => [name.lexeme]
  | .ifElse _ thenBranch none => thenBranch.constants
  | .ifElse _ thenBranch (some elseBranch) => thenBranch.constants ++ elseBranch.constants
  | .loop _ body => body.constants
  | .expression _ | .print _ | .var _ _ | .block _ | .ret _ _ | .brk _ => []

/-- A function or class that is not called what the variable is. -/
theorem MarkedAt.other (h : MarkedAt depth marks) {name : String}
    (hold : depth = 0 → ρ.old ≠ name) (hnew : name ≠ ρ.new) :
    ρ.Other (marks.headD false) name := by
  intro hmarked
  rw [h.headD, beq_iff_eq] at hmarked
  exact ⟨(hold hmarked).symm, hnew⟩

mutual

theorem Stmt.renamed_rename (hold : Chosen ρ.old) (s : Stmt) {depth : Nat} {marks : List Bool}
    (h : MarkedAt depth marks) (hp : s.Proper) (hw : s.Written (·.lexeme ≠ ρ.new))
    (hc : depth = 0 → ρ.old ∉ s.constants) : s.Renamed ρ marks (s.rename ρ depth) := by
  cases s with
  | expression value => exact .expression (value.renamed_rename hold h hp hw)
  | print value => exact .print (value.renamed_rename hold h hp hw)
  | var name initializer =>
    have hvalue := option_renamed_rename hold h initializer hp.2 hw.2
    rw [Stmt.rename, Renaming.declared, ← h.headD]
    exact .var (fun _ => hw.1) hvalue
  | block body =>
    have hinside : depth + 1 = 0 → ρ.old ∉ body.flatMap Stmt.constants := by
      intro hdepth
      cases hdepth
    exact .block false (stmts_renamed_rename hold body h.cons hp hw hinside)
  | ifElse condition thenBranch elseBranch? =>
    cases elseBranch? with
    | none =>
      have hcondition := condition.renamed_rename hold h hp.1 hw.1
      have hthen := thenBranch.renamed_rename hold h hp.2.1 hw.2 hc
      exact .ifOnly hcondition hthen
    | some elseBranch =>
      have hcondition := condition.renamed_rename hold h hp.1 hw.1
      have hthen := thenBranch.renamed_rename hold h hp.2.1.1 hw.2.1 fun hdepth hmem =>
        hc hdepth (List.mem_append_left _ hmem)
      have helse := elseBranch.renamed_rename hold h hp.2.2.1 hw.2.2 fun hdepth hmem =>
        hc hdepth (List.mem_append_right _ hmem)
      exact .ifElse hcondition hthen helse
  | loop condition body =>
    have hcondition := condition.renamed_rename hold h hp.1 hw.1
    have hbody := body.renamed_rename hold h hp.2.1 hw.2 hc
    exact .loop hcondition hbody
  | function definition =>
    have hother := h.other (fun hdepth => List.ne_of_not_mem_cons (hc hdepth))
      (FunctionDef.Written.name hw)
    exact .function hother (definition.renamed_rename hold h hp.2 hw)
  | ret _ value => exact .ret (option_renamed_rename hold h value hp hw.2)
  | brk keyword => exact .brk keyword
  | classDef name superclass methods =>
    cases superclass with
    | none =>
      have hother := h.other (fun hdepth => List.ne_of_not_mem_cons (hc hdepth)) hw.1
      exact .plainClass hother (methods_renamed_rename hold methods h.cons hp.2 hw.2.2)
    | some clause =>
      obtain ⟨id, parent⟩ := clause
      have hother := h.other (fun hdepth => List.ne_of_not_mem_cons (hc hdepth)) hw.1
      have hmethods := methods_renamed_rename hold methods h.cons.cons hp.2.2 hw.2.2
      rw [Stmt.rename, Superclass.rename, Renaming.referred, ← h.refers]
      exact .derivedClass hother (fun _ => hw.2.1 _ rfl) hmethods
termination_by structural s

theorem stmts_renamed_rename (hold : Chosen ρ.old) (ss : List Stmt) {depth : Nat}
    {marks : List Bool} (h : MarkedAt depth marks) (hp : ProperStmts ss)
    (hw : StmtsWritten (·.lexeme ≠ ρ.new) ss) (hc : depth = 0 → ρ.old ∉ ss.flatMap Stmt.constants) :
    StmtsRenamed ρ marks ss (renameStmts ρ depth ss) := by
  cases ss with
  | nil => exact .nil
  | cons s ss =>
    rw [List.flatMap_cons] at hc
    have hfirst := s.renamed_rename hold h hp.1 hw.1 fun hdepth hmem =>
      hc hdepth (List.mem_append_left _ hmem)
    have hrest := stmts_renamed_rename hold ss h hp.2 hw.2 fun hdepth hmem =>
      hc hdepth (List.mem_append_right _ hmem)
    exact .cons hfirst hrest
termination_by structural ss

/-- The marks are those of the scopes around the own scope of a function. -/
theorem FunctionDef.renamed_rename (hold : Chosen ρ.old) (f : FunctionDef) {depth : Nat}
    {marks : List Bool} (h : MarkedAt depth marks) (hp : f.Proper)
    (hw : f.Written (·.lexeme ≠ ρ.new)) : f.Renamed ρ marks (f.rename ρ (depth + 1)) := by
  cases f with
  | mk _ _ body =>
    have hinside : depth + 1 = 0 → ρ.old ∉ body.flatMap Stmt.constants := by
      intro hdepth
      cases hdepth
    have hbody := stmts_renamed_rename hold body h.cons hp.2 hw.2.2 hinside
    exact .mk false (fun p hmem _ => hw.2.1 p hmem) hbody
termination_by structural f

theorem methods_renamed_rename (hold : Chosen ρ.old) (fs : List FunctionDef) {depth : Nat}
    {marks : List Bool} (h : MarkedAt depth marks) (hp : ProperMethods fs)
    (hw : MethodsWritten (·.lexeme ≠ ρ.new) fs) :
    MethodsRenamed ρ marks fs (renameMethods ρ (depth + 1) fs) := by
  cases fs with
  | nil => exact .nil
  | cons f fs =>
    have hfirst := f.renamed_rename hold h hp.1 hw.1
    exact .cons hfirst (methods_renamed_rename hold fs h hp.2 hw.2)
termination_by structural fs

end

/-! ## Declarations -/

theorem Stmt.declared_perm (s : Stmt) :
    s.declared.Perm (s.variables.map Token.lexeme ++ s.constants) := by
  cases s with
  | var _ _ | function _ | classDef _ _ _ | expression _ | print _ | block _ | ret _ _ | brk _ =>
    exact .refl _
  | ifElse _ thenBranch elseBranch? =>
    cases elseBranch? with
    | none => exact thenBranch.declared_perm
    | some elseBranch =>
      simp only [Stmt.declared, Stmt.variables, Stmt.constants, List.map_append]
      refine (thenBranch.declared_perm.append elseBranch.declared_perm).trans ?_
      simp only [List.append_assoc]
      exact (List.perm_append_comm_assoc _ _ _).append_left _
  | loop _ body => exact body.declared_perm
termination_by structural s

/-- Code that breaks no rule has no part that breaks one. -/
theorem violations_append_eq_nil {os os' : List Occurrence} :
    violations (os ++ os') = [] ↔ violations os = [] ∧ violations os' = [] := by
  rw [violations_append, List.append_eq_nil_iff]

section

variable {around : Surroundings} {names : List String}

theorem nodup_declaration {name : Token} {os : List Occurrence} (hnames : around.names = some names)
    (hnodup : names.Nodup) (h : violations (⟨.declaration name, around⟩ :: os) = []) :
    (names ++ [name.lexeme]).Nodup := by
  have hfree : name.lexeme ∉ names := by
    intro hmem
    rw [violations_cons, List.append_eq_nil_iff] at h
    simp [violations, Occurrence.violation?, Surroundings.has, hnames, hmem] at h
  refine List.nodup_append.2 ⟨hnodup, List.nodup_singleton _, fun x hx y hy heq => ?_⟩
  obtain rfl := List.mem_singleton.1 hy
  exact hfree (heq ▸ hx)

/-- A scope declares no name twice. -/
theorem Stmt.nodup_declared (s : Stmt) {around : Surroundings} {names : List String}
    (hnames : around.names = some names) (hnodup : names.Nodup)
    (h : violations (s.occurrences around) = []) : (names ++ s.declared).Nodup := by
  cases s with
  | var _ _ | function _ => exact nodup_declaration hnames hnodup h
  | classDef _ _ _ =>
    rw [Stmt.occurrences, List.cons_append] at h
    exact nodup_declaration hnames hnodup h
  | ifElse _ thenBranch elseBranch? =>
    cases elseBranch? with
    | none =>
      rw [Stmt.occurrences, violations_append_eq_nil] at h
      exact thenBranch.nodup_declared hnames hnodup h.2
    | some elseBranch =>
      rw [Stmt.occurrences, violations_append_eq_nil, violations_append_eq_nil] at h
      have hbehind : (around.behind thenBranch.declared).names =
          some (names ++ thenBranch.declared) := congrArg (Option.map (· ++ _)) hnames
      have hthen := thenBranch.nodup_declared hnames hnodup h.1.2
      rw [Stmt.declared, ← List.append_assoc]
      exact elseBranch.nodup_declared hbehind hthen h.2
  | loop _ body =>
    rw [Stmt.occurrences, violations_append_eq_nil] at h
    have hbody : { around with inLoop := true }.names = some _ := hnames
    exact body.nodup_declared hbody hnodup h.2
  | expression _ | print _ | block _ | ret _ _ | brk _ => rwa [Stmt.declared, List.append_nil]
termination_by structural s

theorem nodup_declared (ss : List Stmt) {around : Surroundings} {names : List String}
    (hnames : around.names = some names) (hnodup : names.Nodup)
    (h : violations (stmtOccurrences around ss) = []) :
    (names ++ ss.flatMap Stmt.declared).Nodup := by
  induction ss generalizing around names with
  | nil => rwa [List.flatMap_nil, List.append_nil]
  | cons s ss ih =>
    rw [stmtOccurrences, violations_append_eq_nil] at h
    have hbehind : (around.behind s.declared).names = some (names ++ s.declared) :=
      congrArg (Option.map (· ++ _)) hnames
    have hfirst := s.nodup_declared hnames hnodup h.1
    rw [List.flatMap_cons, ← List.append_assoc]
    exact ih hbehind hfirst h.2

theorem nodup_params (ps : List Token) {around : Surroundings} {names : List String}
    (hnames : around.names = some names) (hnodup : names.Nodup)
    (h : violations (paramOccurrences around ps) = []) : (names ++ ps.map Token.lexeme).Nodup := by
  induction ps generalizing around names with
  | nil => rwa [List.map_nil, List.append_nil]
  | cons p ps ih =>
    have hparam := nodup_declaration hnames hnodup h
    rw [paramOccurrences, violations_cons, List.append_eq_nil_iff] at h
    have hbehind : (around.behind [p.lexeme]).names = some (names ++ [p.lexeme]) :=
      congrArg (Option.map (· ++ _)) hnames
    have hps := ih hbehind hparam h.2
    rwa [List.append_assoc, List.singleton_append, ← List.map_cons] at hps

end

/-- What a variable of a scope is called, no function and no class of the scope is. -/
theorem not_mem_constants {names : List String} {ss : List Stmt} {name : String}
    (h : (names ++ ss.flatMap Stmt.declared).Nodup)
    (hname : name ∈ names ∨ ∃ t ∈ ss.flatMap Stmt.variables, t.lexeme = name) :
    name ∉ ss.flatMap Stmt.constants := by
  have hperm : (ss.flatMap Stmt.declared).Perm
      ((ss.flatMap Stmt.variables).map Token.lexeme ++ ss.flatMap Stmt.constants) := by
    rw [List.map_flatMap]
    exact (List.Perm.flatMap_left ss fun s _ => s.declared_perm).trans
      (List.flatMap_append_perm ss _ _).symm
  have hnodup := ((hperm.append_left names).nodup_iff).1 h
  rw [← List.append_assoc, List.nodup_append] at hnodup
  refine fun hmem => hnodup.2.2 name ?_ name hmem rfl
  rcases hname with hname | ⟨t, ht, rfl⟩
  · exact List.mem_append_left _ hname
  · exact List.mem_append_right _ (List.mem_map_of_mem ht)

/-! ## The whole program -/

/-- What a scope becomes when one of its variables is renamed. -/
structure ScopeBody.Renamed (ρ : Renaming) (marks : List Bool) (scope scope' : ScopeBody) :
    Prop where
  params : scope'.params = scope.params.map (ρ.respell true)
  apart : ∀ p ∈ scope.params, p.lexeme ≠ ρ.new
  body : StmtsRenamed ρ (true :: marks) scope.body scope'.body

/-- A scope of a program that breaks no rule and does not contain the new name. -/
structure ScopeBody.Fit (ρ : Renaming) (scope : ScopeBody) : Prop where
  proper : ProperStmts scope.body
  chosen : ∀ p ∈ scope.params, Chosen p.lexeme
  params : ∀ p ∈ scope.params, p.lexeme ≠ ρ.new
  written : StmtsWritten (·.lexeme ≠ ρ.new) scope.body
  nodup : (scope.params.map Token.lexeme ++ scope.body.flatMap Stmt.declared).Nodup

theorem Stmt.chosen_of_mem_variables (s : Stmt) {t : Token} (hp : s.Proper) (h : t ∈ s.variables) :
    Chosen t.lexeme := by
  cases s with
  | var _ _ =>
    obtain rfl := List.mem_singleton.1 h
    exact hp.1
  | ifElse _ thenBranch elseBranch? =>
    cases elseBranch? with
    | none => exact thenBranch.chosen_of_mem_variables hp.2.1 h
    | some elseBranch =>
      rcases List.mem_append.1 h with h | h
      · exact thenBranch.chosen_of_mem_variables hp.2.1.1 h
      · exact elseBranch.chosen_of_mem_variables hp.2.2.1 h
  | loop _ body => exact body.chosen_of_mem_variables hp.2.1 h
  | expression _ | print _ | block _ | function _ | ret _ _ | brk _ | classDef _ _ _ => cases h
termination_by structural s

theorem ScopeBody.Fit.chosen_of_mem_locals {scope : ScopeBody} (h : scope.Fit ρ) {t : Token}
    (ht : t ∈ scope.locals) : Chosen t.lexeme := by
  have hall : ∀ ss : List Stmt, ProperStmts ss → t ∈ ss.flatMap Stmt.variables →
      Chosen t.lexeme := by
    intro ss hp ht
    induction ss with
    | nil => cases ht
    | cons s ss ih =>
      rcases List.mem_append.1 ht with ht | ht
      · exact s.chosen_of_mem_variables hp.1 ht
      · exact ih hp.2 ht
  rcases List.mem_append.1 ht with ht | ht
  · exact h.chosen t ht
  · exact hall scope.body h.proper ht

theorem ScopeBody.Fit.renamed {scope : ScopeBody} (h : scope.Fit ρ)
    (hlocal : ∃ t ∈ scope.locals, t.lexeme = ρ.old) (hmarks : Unmarked marks) :
    scope.Renamed ρ marks (scope.rename ρ) where
  params := rfl
  apart := h.params
  body := by
    have hold : Chosen ρ.old := by
      obtain ⟨t, ht, heq⟩ := hlocal
      exact heq ▸ h.chosen_of_mem_locals ht
    refine stmts_renamed_rename hold scope.body (.start hmarks) h.proper h.written fun _ =>
      not_mem_constants h.nodup ?_
    obtain ⟨t, ht, heq⟩ := hlocal
    rcases List.mem_append.1 ht with ht | ht
    · exact .inl (heq ▸ List.mem_map_of_mem ht)
    · exact .inr ⟨t, ht, heq⟩

mutual

theorem Stmt.fit_of_mem_holes (s : Stmt) {around : Surroundings} {hole : Hole Stmt} (hp : s.Proper)
    (hw : s.Written (·.lexeme ≠ ρ.new)) (hv : violations (s.occurrences around) = [])
    (h : hole ∈ s.holes) : hole.inside.Fit ρ := by
  cases s with
  | block body =>
    rcases List.mem_cons.1 h with rfl | h
    · have hnodup := @nodup_declared body { around with names := some [] } [] rfl .nil hv
      exact ⟨hp, List.forall_mem_nil _, List.forall_mem_nil _, hw, hnodup⟩
    · obtain ⟨inner, hinner, rfl⟩ := List.mem_map.1 h
      exact (fit_of_mem_stmtHoles body hp hw hv hinner :)
  | ifElse condition thenBranch elseBranch? =>
    cases elseBranch? with
    | none =>
      rw [Stmt.occurrences, violations_append_eq_nil] at hv
      obtain ⟨inner, hinner, rfl⟩ := List.mem_map.1 h
      exact (thenBranch.fit_of_mem_holes hp.2.1 hw.2 hv.2 hinner :)
    | some elseBranch =>
      rw [Stmt.occurrences, violations_append_eq_nil, violations_append_eq_nil] at hv
      rcases List.mem_append.1 h with h | h
      · obtain ⟨inner, hinner, rfl⟩ := List.mem_map.1 h
        exact (thenBranch.fit_of_mem_holes hp.2.1.1 hw.2.1 hv.1.2 hinner :)
      · obtain ⟨inner, hinner, rfl⟩ := List.mem_map.1 h
        exact (elseBranch.fit_of_mem_holes hp.2.2.1 hw.2.2 hv.2 hinner :)
  | loop condition body =>
    rw [Stmt.occurrences, violations_append_eq_nil] at hv
    obtain ⟨inner, hinner, rfl⟩ := List.mem_map.1 h
    exact (body.fit_of_mem_holes hp.2.1 hw.2 hv.2 hinner :)
  | function definition =>
    rw [Stmt.occurrences, violations_cons, List.append_eq_nil_iff] at hv
    obtain ⟨inner, hinner, rfl⟩ := List.mem_map.1 h
    exact (definition.fit_of_mem_holes hp.2 hw hv.2 hinner :)
  | classDef name superclass methods =>
    rw [Stmt.occurrences, violations_append_eq_nil] at hv
    obtain ⟨inner, hinner, rfl⟩ := List.mem_map.1 h
    have hproper : ProperMethods methods := by
      cases superclass with
      | none => exact hp.2
      | some s => exact hp.2.2
    exact (fit_of_mem_methodHoles methods hproper hw.2.2 hv.2 hinner :)
  | expression _ | print _ | var _ _ | ret _ _ | brk _ => cases h
termination_by structural s

theorem fit_of_mem_stmtHoles (ss : List Stmt) {around : Surroundings} {hole : Hole (List Stmt)}
    (hp : ProperStmts ss) (hw : StmtsWritten (·.lexeme ≠ ρ.new) ss)
    (hv : violations (stmtOccurrences around ss) = []) (h : hole ∈ stmtHoles ss) :
    hole.inside.Fit ρ := by
  cases ss with
  | nil => cases h
  | cons s ss =>
    rw [stmtOccurrences, violations_append_eq_nil] at hv
    rcases List.mem_append.1 h with h | h
    · obtain ⟨inner, hinner, rfl⟩ := List.mem_map.1 h
      exact (s.fit_of_mem_holes hp.1 hw.1 hv.1 hinner :)
    · obtain ⟨inner, hinner, rfl⟩ := List.mem_map.1 h
      exact (fit_of_mem_stmtHoles ss hp.2 hw.2 hv.2 hinner :)
termination_by structural ss

theorem FunctionDef.fit_of_mem_holes (f : FunctionDef) {around : Surroundings} {sort : BodySort}
    {hole : Hole FunctionDef} (hp : f.Proper) (hw : f.Written (·.lexeme ≠ ρ.new))
    (hv : violations (f.occurrences around sort) = []) (h : hole ∈ f.holes) :
    hole.inside.Fit ρ := by
  cases f with
  | mk name params body =>
    rw [FunctionDef.occurrences, violations_append_eq_nil] at hv
    rcases List.mem_cons.1 h with rfl | h
    · have hparams := @nodup_params params (around.within sort) [] rfl .nil hv.1
      have hbehind : ((around.within sort).behind (params.map Token.lexeme)).names =
          some ([] ++ params.map Token.lexeme) := rfl
      exact ⟨hp.2, hp.1, hw.2.1, hw.2.2, nodup_declared body hbehind hparams hv.2⟩
    · obtain ⟨inner, hinner, rfl⟩ := List.mem_map.1 h
      exact (fit_of_mem_stmtHoles body hp.2 hw.2.2 hv.2 hinner :)
termination_by structural f

theorem fit_of_mem_methodHoles (fs : List FunctionDef) {around : Surroundings}
    {hole : Hole (List FunctionDef)} (hp : ProperMethods fs)
    (hw : MethodsWritten (·.lexeme ≠ ρ.new) fs) (hv : violations (methodOccurrences around fs) = [])
    (h : hole ∈ methodHoles fs) : hole.inside.Fit ρ := by
  cases fs with
  | nil => cases h
  | cons f fs =>
    rw [methodOccurrences, violations_append_eq_nil] at hv
    rcases List.mem_append.1 h with h | h
    · obtain ⟨inner, hinner, rfl⟩ := List.mem_map.1 h
      exact (f.fit_of_mem_holes hp.1 hw.1 hv.1 hinner :)
    · obtain ⟨inner, hinner, rfl⟩ := List.mem_map.1 h
      exact (fit_of_mem_methodHoles fs hp.2 hw.2 hv.2 hinner :)
termination_by structural fs

end

section

variable {scope' : ScopeBody}

mutual

theorem Stmt.renamed_fill (s : Stmt) {marks : List Bool} {hole : Hole Stmt} (h : hole ∈ s.holes)
    (hscope : ∀ {marks}, Unmarked marks → hole.inside.Renamed ρ marks scope')
    (hm : Unmarked marks) : s.Renamed ρ marks (hole.fill scope') := by
  cases s with
  | block body =>
    rcases List.mem_cons.1 h with rfl | h
    · exact .block true (hscope hm).body
    · obtain ⟨inner, hinner, rfl⟩ := List.mem_map.1 h
      have hbody := stmts_renamed_fill body hinner hscope hm.cons
      exact .block false hbody
  | ifElse condition thenBranch elseBranch? =>
    cases elseBranch? with
    | none =>
      obtain ⟨inner, hinner, rfl⟩ := List.mem_map.1 h
      have hthen := thenBranch.renamed_fill hinner hscope hm
      exact .ifOnly (condition.renamed_self hm) hthen
    | some elseBranch =>
      rcases List.mem_append.1 h with h | h
      · obtain ⟨inner, hinner, rfl⟩ := List.mem_map.1 h
        have hthen := thenBranch.renamed_fill hinner hscope hm
        exact .ifElse (condition.renamed_self hm) hthen (elseBranch.renamed_self hm)
      · obtain ⟨inner, hinner, rfl⟩ := List.mem_map.1 h
        have helse := elseBranch.renamed_fill hinner hscope hm
        exact .ifElse (condition.renamed_self hm) (thenBranch.renamed_self hm) helse
  | loop condition body =>
    obtain ⟨inner, hinner, rfl⟩ := List.mem_map.1 h
    have hbody := body.renamed_fill hinner hscope hm
    exact .loop (condition.renamed_self hm) hbody
  | function definition =>
    obtain ⟨inner, hinner, rfl⟩ := List.mem_map.1 h
    have hdefinition := definition.renamed_fill hinner hscope hm
    exact .function (hm.other _) hdefinition
  | classDef name superclass methods =>
    cases superclass with
    | none =>
      obtain ⟨inner, hinner, rfl⟩ := List.mem_map.1 h
      have hmethods := methods_renamed_fill methods hinner hscope hm.cons
      exact .plainClass (hm.other _) hmethods
    | some clause =>
      obtain ⟨id, parent⟩ := clause
      obtain ⟨inner, hinner, rfl⟩ := List.mem_map.1 h
      have hmethods := methods_renamed_fill methods hinner hscope hm.cons.cons
      have hclass := Stmt.Renamed.derivedClass (hm.other name.lexeme)
        (hm.refersApart id parent.lexeme) hmethods
      rwa [hm.refers] at hclass
  | expression _ | print _ | var _ _ | ret _ _ | brk _ => cases h
termination_by structural s

theorem stmts_renamed_fill (ss : List Stmt) {marks : List Bool} {hole : Hole (List Stmt)}
    (h : hole ∈ stmtHoles ss)
    (hscope : ∀ {marks}, Unmarked marks → hole.inside.Renamed ρ marks scope')
    (hm : Unmarked marks) : StmtsRenamed ρ marks ss (hole.fill scope') := by
  cases ss with
  | nil => cases h
  | cons s ss =>
    rcases List.mem_append.1 h with h | h
    · obtain ⟨inner, hinner, rfl⟩ := List.mem_map.1 h
      have hfirst := s.renamed_fill hinner hscope hm
      exact .cons hfirst (stmts_renamed_self hm ss)
    · obtain ⟨inner, hinner, rfl⟩ := List.mem_map.1 h
      have hrest := stmts_renamed_fill ss hinner hscope hm
      exact .cons (s.renamed_self hm) hrest
termination_by structural ss

theorem FunctionDef.renamed_fill (f : FunctionDef) {marks : List Bool} {hole : Hole FunctionDef}
    (h : hole ∈ f.holes) (hscope : ∀ {marks}, Unmarked marks → hole.inside.Renamed ρ marks scope')
    (hm : Unmarked marks) : f.Renamed ρ marks (hole.fill scope') := by
  cases f with
  | mk name params body =>
    rcases List.mem_cons.1 h with rfl | h
    · have hscope := hscope hm
      dsimp only
      rw [hscope.params]
      exact .mk true (fun p hp _ => hscope.apart p hp) hscope.body
    · obtain ⟨inner, hinner, rfl⟩ := List.mem_map.1 h
      have hbody := stmts_renamed_fill body hinner hscope hm.cons
      have hf : FunctionDef.Renamed ρ marks ⟨name, params, body⟩ _ :=
        .mk false (fun _ _ hmarked => by cases hmarked) hbody
      rwa [show params.map (ρ.respell false) = params from List.map_id params] at hf
termination_by structural f

theorem methods_renamed_fill (fs : List FunctionDef) {marks : List Bool}
    {hole : Hole (List FunctionDef)} (h : hole ∈ methodHoles fs)
    (hscope : ∀ {marks}, Unmarked marks → hole.inside.Renamed ρ marks scope')
    (hm : Unmarked marks) : MethodsRenamed ρ marks fs (hole.fill scope') := by
  cases fs with
  | nil => cases h
  | cons f fs =>
    rcases List.mem_append.1 h with h | h
    · obtain ⟨inner, hinner, rfl⟩ := List.mem_map.1 h
      have hfirst := f.renamed_fill hinner hscope hm
      exact .cons hfirst (methods_renamed_self hm fs)
    · obtain ⟨inner, hinner, rfl⟩ := List.mem_map.1 h
      have hrest := methods_renamed_fill fs hinner hscope hm
      exact .cons (f.renamed_self hm) hrest
termination_by structural fs

end

end

/-- A program that breaks no rule, and what becomes of it when a variable of one of its scopes gets
    a name that does not occur in it. -/
theorem renamed_of_mem_holes {program : List Stmt} {hole : Hole (List Stmt)}
    (hole_mem : hole ∈ stmtHoles program) (hp : ProperStmts program)
    (hw : StmtsWritten (·.lexeme ≠ ρ.new) program) (hv : staticViolations program = [])
    (hlocal : ∃ t ∈ hole.inside.locals, t.lexeme = ρ.old) :
    Chosen ρ.old ∧ StmtsRenamed ρ [false] program (hole.fill (hole.inside.rename ρ)) := by
  have hfit := fit_of_mem_stmtHoles program hp hw hv hole_mem
  refine ⟨?_, stmts_renamed_fill program hole_mem (fun hm => hfit.renamed hlocal hm)
    fun distance => ?_⟩
  · obtain ⟨t, ht, heq⟩ := hlocal
    exact heq ▸ hfit.chosen_of_mem_locals ht
  · cases distance <;> rfl

end Lox
