import Lox.Proofs.Alike.Evaluation
import Lox.Proofs.Renaming.Machines

set_option autoImplicit false

/-! # A program with a renamed variable runs like the program

On machines that are the same but for the name of the variable, an expression and what becomes of it
have values that are the same but for that name, and a statement and what becomes of it end in the
same way, for every bound on the number of steps (`evaluate_execute_follows`). The two runs write
the same text, and where one stops, the other stops for the same reason. -/

namespace Lox

/-- Two statements that end in the same way. -/
inductive Flow.Renamed (ρ : Renaming) (opened : List Bool) : Flow → Flow → Prop
  | normal : Flow.Renamed ρ opened .normal .normal
  | returned {v v' : Value} : v.Renamed ρ opened v' →
      Flow.Renamed ρ opened (.returned v) (.returned v')
  | broken : Flow.Renamed ρ opened .broken .broken

namespace Renaming

open Eval

variable {ρ : Renaming} {opened marks : List Bool}

/-! ## Operators -/

section

variable (operator : Token)

theorem follows_of_answers {x y : Eval Value}
    (h : Answers (ρ.correspondence opened) operator operator x y) :
    ρ.Follows opened marks (Value.Renamed ρ) x y := by
  cases h with
  | value h => exact .pure (Value.renamed_iff_under.2 h)
  | problem problem => exact raise_same operator problem

variable {v v' w w' : Value} (hv : v.Renamed ρ opened v')

include hv

theorem applyUnary_follows :
    ρ.Follows opened marks (Value.Renamed ρ) (applyUnary operator v) (applyUnary operator v') :=
  follows_of_answers operator (applyUnary_answers rfl (Value.renamed_iff_under.1 hv))

theorem applyBinary_follows (hw : w.Renamed ρ opened w') :
    ρ.Follows opened marks (Value.Renamed ρ) (applyBinary operator v w)
      (applyBinary operator v' w') :=
  follows_of_answers operator
    (applyBinary_answers rfl (Value.renamed_iff_under.1 hv) (Value.renamed_iff_under.1 hw))

end

/-! ## Calls -/

/-- A way to evaluate expressions that follows another one, in every scope. -/
def Evaluates (ρ : Renaming) (ev ev' : Expr → Eval Value) : Prop :=
  ∀ opened marks e e', e.Renamed ρ marks e' →
    ρ.Follows opened marks (Value.Renamed ρ) (ev e) (ev' e')

/-- A way to run statements that follows another one, in every scope. -/
def Executes (ρ : Renaming) (run run' : Stmt → Eval Flow) : Prop :=
  ∀ opened marks s s', s.Renamed ρ marks s' →
    ρ.Follows opened marks (Flow.Renamed ρ) (run s) (run' s')

section

variable {run run' : Stmt → Eval Flow}

theorem runAll_follows (hrun : ρ.Executes run run') {ss ss' : List Stmt} {opened : List Bool}
    (h : StmtsRenamed ρ marks ss ss') :
    ρ.Follows opened marks (Flow.Renamed ρ) (runAll run ss) (runAll run' ss') := by
  induction ss generalizing ss' opened with
  | nil =>
    cases h
    exact .pure .normal
  | cons s ss ih =>
    cases h with
    | cons hs hss =>
      refine (hrun opened marks _ _ hs).bind fun _ _ flow flow' hflow => ?_
      cases hflow with
      | normal => exact ih hss
      | returned hv => exact .pure (.returned hv)
      | broken => exact .pure .broken

variable (hthis : ∀ marked, ρ.Other marked "this")

include hthis

theorem result_follows {f f' : Closure} (hf : f.Renamed ρ opened f') {flow flow' : Flow}
    (hflow : flow.Renamed ρ opened flow') :
    ρ.Follows opened marks (Value.Renamed ρ) (result f flow) (result f' flow') := by
  obtain ⟨around, hchain, hd⟩ := hf.definition
  unfold result
  rw [hf.isInitializer, hf.chain, hd.name]
  split
  · refine .get_bind fun m m' h => orUndefined_same ?_ m m' h
    have hvalue := h.store.getAt? hchain 0 "this"
    rwa [(hthis _).key] at hvalue
  · cases hflow with
    | normal => exact .pure .nil
    | returned hv => exact .pure hv
    | broken => exact .throw .impossible

variable (hrun : ρ.Executes run run')

include hrun

theorem callFunction_follows {f f' : Closure} (hf : f.Renamed ρ opened f') {vs vs' : List Value}
    (hvs : List.Forall₂ (Value.Renamed ρ opened) vs vs') :
    ρ.Follows opened marks (Value.Renamed ρ) (callFunction run f vs)
      (callFunction run' f' vs') := by
  obtain ⟨around, hchain, hd⟩ := hf.definition
  unfold callFunction
  rw [hf.chain]
  have hbody : ∃ marked, f'.definition.params.map (·.lexeme) =
      (f.definition.params.map (·.lexeme)).map (ρ.key marked) ∧
        StmtsRenamed ρ (marked :: around) f.definition.body f'.definition.body := by
    generalize f.definition = d at hd ⊢
    generalize f'.definition = d' at hd ⊢
    cases hd with
    | mk marked hparams hbody =>
      refine ⟨marked, ?_, hbody⟩
      rw [List.map_map, List.map_map]
      exact List.map_congr_left fun p hp => respell_lexeme (hparams p hp)
  obtain ⟨marked, hnames, hbody⟩ := hbody
  refine (openScope_follows marked hchain (bindingsRenamed_zip hnames hvs)).bind
    fun _ hle chain _ hopen => ?_
  obtain ⟨rfl, hmarked⟩ := hopen
  exact (within_follows hmarked (runAll_follows hrun hbody)).bind fun _ hle' _ _ hflow =>
    result_follows hthis (hf.mono (hle.trans hle')) hflow

theorem construct_follows {c c' : Class} (hc : c.Renamed ρ opened c') {vs vs' : List Value}
    (hvs : List.Forall₂ (Value.Renamed ρ opened) vs vs') :
    ρ.Follows opened marks (Value.Renamed ρ) (construct run c vs) (construct run' c' vs') := by
  refine (newObject_follows hc).bind fun _ hle object object' hobject => ?_
  have hinit := (hc.mono hle).method? initializerName
  generalize c.method? initializerName = method at hinit ⊢
  generalize c'.method? initializerName = method' at hinit ⊢
  cases hinit with
  | none => exact .pure hobject
  | some hm =>
    refine (bindMethod_follows hm hobject).bind fun _ hle' f f' hf => ?_
    have hvs' := List.Forall₂.imp (fun _ _ hv => hv.mono (hle.trans hle')) hvs
    exact (callFunction_follows hthis hrun hf hvs').bind fun _ hle'' _ _ _ =>
      .pure (hobject.mono (hle'.trans hle''))

theorem applyCall_follows (paren : Token) {v v' : Value} (hv : v.Renamed ρ opened v')
    {vs vs' : List Value} (hvs : List.Forall₂ (Value.Renamed ρ opened) vs vs') :
    ρ.Follows opened marks (Value.Renamed ρ) (applyCall run paren v vs)
      (applyCall run' paren v' vs') := by
  have hlength := hvs.length_eq
  unfold applyCall
  rw [hv.arity?]
  cases v.arity? with
  | none => exact raise_same _ _
  | some arity =>
    dsimp only
    rw [← hlength]
    split
    · exact raise_same _ _
    · cases hv with
      | function hf => exact callFunction_follows hthis hrun hf hvs
      | «class» hc => exact construct_follows hthis hrun hc hvs
      | native f =>
        cases f with
        | clock => exact readClock_follows
      | nil | bool | number | string | object => exact raise_same _ _

end

/-! ## Classes -/

theorem superclassValue_follows {id : RefId} {name : Token}
    (hname : ρ.Apart (ρ.refers marks id) name.lexeme) :
    ρ.Follows opened marks (Class.Renamed ρ) (superclassValue ⟨id, name⟩)
      (superclassValue ⟨id, ρ.respell (ρ.refers marks id) name⟩) := by
  refine (lookUp_follows hname).bind fun _ _ v v' hv => ?_
  cases hv with
  | «class» hc => exact .pure hc
  | nil | bool | number | string | native | function | object => exact raise_follows _ _ _

section

variable {name : Token} (hname : ρ.Other (marks.headD false) name.lexeme)

include hname

/-- Make a class of its methods, its name being bound. -/
theorem makeClass_follows {chain chain' : Chain} (hsame : chain' = chain) {around : List Bool}
    (hchain : chain.Marked opened around)
    {fs fs' : List FunctionDef} (hfs : MethodsRenamed ρ (false :: around) fs fs')
    {ancestors ancestors' : List ClassBody}
    (hancestors : List.Forall₂ (ClassBody.Renamed ρ opened) ancestors ancestors') {m m' : Machine}
    (h : m.Renamed ρ opened marks m') (hbound : m.Binds name.lexeme) :
    ρ.Ends opened marks (fun _ _ _ => True)
      ((do
        let identity ← freshIdentity
        assignInnermost name
          (.class ⟨⟨identity, name.lexeme, methodsOf chain fs⟩, ancestors⟩) : Eval Unit) m)
      ((do
        let identity ← freshIdentity
        assignInnermost name
          (.class ⟨⟨identity, name.lexeme, methodsOf chain' fs'⟩, ancestors'⟩) : Eval Unit)
        m') := by
  subst hsame
  have hclass : Class.Renamed ρ opened
      ⟨⟨m.nextIdentity, name.lexeme, methodsOf chain' fs⟩, ancestors⟩
      ⟨⟨m'.nextIdentity, name.lexeme, methodsOf chain' fs'⟩, ancestors'⟩ :=
    .cons ⟨h.nextIdentity, rfl, methodsOf_renamed hchain hfs⟩ hancestors
  exact assignInnermost_follows hname (.class hclass)
    { h with nextIdentity := congrArg (· + 1) h.nextIdentity } hbound

theorem declareClass_follows_plain {fs fs' : List FunctionDef}
    (hfs : MethodsRenamed ρ (false :: marks) fs fs') :
    ρ.Follows opened marks (fun _ _ _ => True) (declareClass name none fs)
      (declareClass name none fs') := by
  intro m m' h
  unfold declareClass
  simp only [pure_bind]
  refine (define_same hname .nil m m' h).bind fun _ _ _ _ m₁ m₁' hstep _ hm => ?_
  rw [get_bind, get_bind]
  have hbound := binds_of_define (fun _ _ => h.opened_of_chain) hstep
  exact makeClass_follows hname hm.chain hm.marked hfs .nil hm hbound

theorem declareClass_follows_derived {id : RefId} {parent : Token}
    (hparent : ρ.Apart (ρ.refers marks id) parent.lexeme) {fs fs' : List FunctionDef}
    (hfs : MethodsRenamed ρ (false :: false :: marks) fs fs') :
    ρ.Follows opened marks (fun _ _ _ => True) (declareClass name (some ⟨id, parent⟩) fs)
      (declareClass name (some ⟨id, ρ.respell (ρ.refers marks id) parent⟩) fs') := by
  unfold declareClass
  simp only [bind_map_left]
  refine (superclassValue_follows hparent).bind fun opened _ c c' hc => ?_
  intro m m' h
  refine (define_same hname .nil m m' h).bind fun _ hle _ _ m₁ m₁' hstep _ hm => ?_
  rw [get_bind, get_bind, hm.chain]
  have hsuper := bindingsRenamed_one "super" (.class (hc.mono hle))
  refine (openScope_follows false hm.marked hsuper m₁ m₁' hm).bind
    fun _ hle' chain chain' m₂ m₂' hstep' hmarked hm₂ => ?_
  exact makeClass_follows hname hmarked.1 hmarked.2 hfs (hc.mono (hle.trans hle')) hm₂
    (binds_of_openScope (binds_of_define (fun _ _ => h.opened_of_chain) hstep) hstep')

end

section

variable (hthis : ∀ marked, ρ.Other marked "this")

include hthis

theorem superMethod_follows {id : RefId} {keyword : Token} (method : Token)
    (hkeyword : ρ.Other (ρ.refers marks id) keyword.lexeme) :
    ρ.Follows opened marks (Value.Renamed ρ) (superMethod id keyword method)
      (superMethod id keyword method) := by
  refine .get_bind fun m m' h => ?_
  rw [h.known, h.known', h.chain]
  cases hd : ρ.distances.get? id with
  | none => exact raise_same keyword _ m m' h
  | some distance =>
    have hsuper := h.store.getAt? h.marked distance keyword.lexeme
    rw [← refers_of_some hd, hkeyword.key] at hsuper
    refine ((orUndefined_same hsuper).bind fun _ hle v v' hv => ?_) m m' h
    cases distance with
    | zero => exact .throw .impossible
    | succ inner =>
      have hobject := h.store.getAt? h.marked inner "this"
      rw [(hthis _).key] at hobject
      refine (orUndefined_same (rel_mono (fun _ _ hv => hv.mono hle) hobject)).bind
        fun _ hle' o o' ho => ?_
      cases hv with
      | nil | bool | number | string | native | function | object => exact raise_same _ _
      | «class» hc =>
        cases ho with
        | nil | bool | number | string | native | function | «class» => exact raise_same _ _
        | object identity hclass =>
          have hfound := (hc.mono hle').method? method.lexeme
          dsimp only
          generalize Class.method? _ method.lexeme = found at hfound ⊢
          generalize Class.method? _ method.lexeme = found' at hfound ⊢
          cases hfound with
          | none => exact raise_same _ _
          | some hf =>
            exact (bindMethod_follows hf (.object identity hclass)).bind fun _ _ _ _ h =>
              .pure (.function h)

/-! ## Expressions and statements -/

section

variable {fuel : Nat} (hevaluate : ρ.Evaluates (evaluate fuel) (evaluate fuel))
  (hexecute : ρ.Executes (execute fuel) (execute fuel))

include hevaluate hexecute

/-- An expression, if this is known of what is one step less deep. -/
theorem Evaluates.succ : ρ.Evaluates (evaluate (fuel + 1)) (evaluate (fuel + 1)) := by
  intro opened marks e e' he
  cases he with
  | literal value => exact .pure (Value.renamed_iff_under.2 (toValue_under value))
  | grouping h => exact hevaluate _ _ _ _ h
  | unary h => exact (hevaluate _ _ _ _ h).bind fun _ _ _ _ hv => applyUnary_follows _ hv
  | binary h h' =>
    refine (hevaluate _ _ _ _ h).bind fun _ _ _ _ hv => ?_
    refine (hevaluate _ _ _ _ h').bind fun _ hle _ _ hw => ?_
    exact applyBinary_follows _ (hv.mono hle) hw
  | @logical operator _ _ _ _ h h' =>
    refine (hevaluate _ _ _ _ h).bind fun _ _ v v' hv => ?_
    rw [shortCircuits_under rfl (Value.renamed_iff_under.1 hv)]
    split
    · exact .pure hv
    · exact hevaluate _ _ _ _ h'
  | var hname => exact lookUp_follows hname
  | assign hname h =>
    refine (hevaluate _ _ _ _ h).bind fun _ _ _ _ hv => ?_
    refine (assign_follows hname hv).bind fun _ hle _ _ _ => ?_
    exact .pure (hv.mono hle)
  | call h hes =>
    refine (hevaluate _ _ _ _ h).bind fun opened _ _ _ hv => ?_
    exact (Follows.mapM (fun _ _ _ _ hle hv => hv.mono hle)
      (fun opened e e' he => hevaluate opened marks e e' he) hes).bind fun _ hle _ _ hvs =>
      applyCall_follows hthis hexecute _ (hv.mono hle) hvs
  | get h =>
    refine (hevaluate _ _ _ _ h).bind fun _ _ v v' hv => ?_
    cases hv with
    | object identity hc => exact getProperty_follows identity hc _
    | nil | bool | number | string | native | function | «class» => exact raise_same _ _
  | @set name _ _ _ _ h h' =>
    refine (hevaluate _ _ _ _ h).bind fun _ _ v v' hv => ?_
    cases hv with
    | object identity hc =>
      refine (hevaluate _ _ _ _ h').bind fun _ _ _ _ hw => ?_
      refine (setField_follows identity name.lexeme hw).bind fun _ hle _ _ _ => ?_
      exact .pure (hw.mono hle)
    | nil | bool | number | string | native | function | «class» => exact raise_same _ _
  | thisRef hname => exact lookUp_same hname
  | superRef hname => exact superMethod_follows hthis _ hname

omit hthis in
/-- A statement, if this is known of what is one step less deep. -/
theorem Executes.succ : ρ.Executes (execute (fuel + 1)) (execute (fuel + 1)) := by
  intro opened marks s s' hs
  cases hs with
  | expression h => exact (hevaluate _ _ _ _ h).bind fun _ _ _ _ _ => .pure .normal
  | print h =>
    refine (hevaluate _ _ _ _ h).bind fun _ _ v v' hv => ?_
    rw [hv.text]
    exact (printLine_follows _).bind fun _ _ _ _ _ => .pure .normal
  | var hname h =>
    cases h with
    | none => exact (define_respelled hname .nil).bind fun _ _ _ _ _ => .pure .normal
    | some h =>
      refine (hevaluate _ _ _ _ h).bind fun _ _ _ _ hv => ?_
      refine (define_respelled hname hv).bind fun _ _ _ _ _ => ?_
      exact .pure .normal
  | block marked hss =>
    refine .get_bind fun m m' hm => ?_
    rw [hm.chain]
    refine ((openScope_follows marked hm.marked .nil).bind fun _ _ chain _ hopen => ?_) m m' hm
    obtain ⟨rfl, hmarked⟩ := hopen
    exact within_follows hmarked (runAll_follows hexecute hss)
  | ifOnly hc h =>
    refine (hevaluate _ _ _ _ hc).bind fun _ _ v v' hv => ?_
    rw [hv.isTruthy]
    split
    · exact hexecute _ _ _ _ h
    · exact .pure .normal
  | ifElse hc h ho =>
    refine (hevaluate _ _ _ _ hc).bind fun _ _ v v' hv => ?_
    rw [hv.isTruthy]
    split
    · exact hexecute _ _ _ _ h
    · exact hexecute _ _ _ _ ho
  | loop hc h =>
    refine (hevaluate _ _ _ _ hc).bind fun _ _ v v' hv => ?_
    rw [hv.isTruthy]
    split
    · refine (hexecute _ _ _ _ h).bind fun _ _ flow flow' hflow => ?_
      cases hflow with
      | normal => exact hexecute _ _ _ _ (.loop hc h)
      | broken => exact .pure .normal
      | returned hv => exact .pure (.returned hv)
    · exact .pure .normal
  | function hname hf =>
    refine (close_follows hf).bind fun _ _ v v' hv => ?_
    rw [hf.name]
    exact (define_same hname hv).bind fun _ _ _ _ _ => .pure .normal
  | ret h =>
    cases h with
    | none => exact .pure (.returned .nil)
    | some h => exact (hevaluate _ _ _ _ h).bind fun _ _ _ _ hv => .pure (.returned hv)
  | brk _ => exact .pure .broken
  | plainClass hname hfs =>
    exact (declareClass_follows_plain hname hfs).bind fun _ _ _ _ _ => .pure .normal
  | derivedClass hname hparent hfs =>
    exact (declareClass_follows_derived hname hparent hfs).bind fun _ _ _ _ _ => .pure .normal

end

/-- With the same fuel, an expression and a statement run like what becomes of them. -/
theorem evaluate_execute_follows (fuel : Nat) :
    ρ.Evaluates (evaluate fuel) (evaluate fuel) ∧ ρ.Executes (execute fuel) (execute fuel) := by
  induction fuel with
  | zero => exact ⟨fun _ _ _ _ _ => .throw .outOfFuel, fun _ _ _ _ _ => .throw .outOfFuel⟩
  | succ fuel ih =>
    obtain ⟨hevaluate, hexecute⟩ := ih
    exact ⟨.succ hthis hevaluate hexecute, .succ hevaluate hexecute⟩

/-- A program runs like what becomes of it. -/
theorem runProgram_follows (fuel : Nat) {program program' : List Stmt}
    (h : StmtsRenamed ρ marks program program') :
    ρ.Follows opened marks (fun _ _ _ => True) (runProgram fuel program)
      (runProgram fuel program') := by
  refine (runAll_follows (evaluate_execute_follows hthis fuel).2 h).bind
    fun _ _ flow flow' hflow => ?_
  cases hflow with
  | normal => exact flush_follows
  | returned _ => exact .throw .impossible
  | broken => exact .throw .impossible

end

end Renaming

end Lox
