import Lox.Proofs.Alike.Evaluation
import Lox.Proofs.Loops.Machines

set_option autoImplicit false

/-! # Running a program and running it directly

A round of the interpreter follows another round if the parts follow each other
(`evaluateRound_follows`, `executeRound_follows`). So the interpreter follows the direct one: where
both make the same round that is all there is to it, and in the block of a body and an increment the
idle scope is not seen (`evaluate_execute_follows`). -/

namespace Lox

/-- Two statements that end in the same way. -/
inductive Flow.Thins (T : Tables) (opened : List Bool) : Flow → Flow → Prop
  | normal : Flow.Thins T opened .normal .normal
  | returned {v v' : Value} : v.Thins T opened v' →
      Flow.Thins T opened (.returned v) (.returned v')
  | broken : Flow.Thins T opened .broken .broken

namespace Tables

open Eval

variable {T : Tables} {opened : List Bool} {chain chain' : Chain}

/-! ## Operators -/

section

variable (operator : Token)

theorem follows_of_answers {x y : Eval Value}
    (h : Answers (T.correspondence opened) operator operator x y) :
    T.Follows opened chain chain' (Value.Thins T) x y := by
  cases h with
  | value h => exact .pure h
  | problem problem => exact raise_follows operator problem

variable {v v' w w' : Value} (hv : v.Thins T opened v')

include hv

theorem applyUnary_follows :
    T.Follows opened chain chain' (Value.Thins T) (applyUnary operator v)
      (applyUnary operator v') :=
  follows_of_answers operator (applyUnary_answers rfl hv)

theorem applyBinary_follows (hw : w.Thins T opened w') :
    T.Follows opened chain chain' (Value.Thins T) (applyBinary operator v w)
      (applyBinary operator v' w') :=
  follows_of_answers operator (applyBinary_answers rfl hv hw)

end

/-! ## Parts that follow each other -/

/-- Ways to evaluate expressions, one of which follows the other wherever their text stands. -/
def Evaluates (T : Tables) (ev ev' : Expr → Eval Value) : Prop :=
  ∀ {opened chain chain'} {scopes : Scopes} {e : Expr},
    Chain.Thins opened chain chain' scopes.marks → (∀ r ∈ e.references, T.Knows ⟨r, scopes⟩) →
      T.Follows opened chain chain' (Value.Thins T) (ev e) (ev' e)

/-- Ways to run statements, one of which follows the other wherever their text stands. In an idle
    scope nothing is declared. -/
def Executes (T : Tables) (run run' : Stmt → Eval Flow) : Prop :=
  ∀ {opened chain chain'} {scopes : Scopes} {s : Stmt} {inFunction inLoop : Bool},
    Chain.Thins opened chain chain' scopes.marks → s.Checked T.Knows scopes inFunction inLoop →
      (s.declares = true → scopes.idle = false) →
        T.Follows opened chain chain' (Flow.Thins T) (run s) (run' s)

/-! ## Calls -/

section

variable {run run' : Stmt → Eval Flow} (hrun : T.Executes run run')

include hrun

theorem runAll_follows {ss : List Stmt} {opened : List Bool} {scopes : Scopes}
    {inFunction inLoop : Bool} (hchain : chain.Thins opened chain' scopes.marks)
    (hchecked : CheckedStmts T.Knows scopes inFunction inLoop ss)
    (hdeclares : ∀ s ∈ ss, s.declares = true → scopes.idle = false) :
    T.Follows opened chain chain' (Flow.Thins T) (runAll run ss) (runAll run' ss) := by
  induction ss generalizing opened scopes with
  | nil => exact .pure .normal
  | cons s ss ih =>
    rw [List.forall_mem_cons] at hdeclares
    refine (hrun hchain hchecked.1 hdeclares.1).bind fun _ hle flow flow' hflow => ?_
    cases hflow with
    | normal =>
      refine ih ?_ hchecked.2 fun s' hs' hd => ?_
      · rw [Scopes.marks_after]
        exact hchain.mono hle
      · exact (Scopes.idle_after s scopes).trans (hdeclares.2 s' hs' hd)
    | returned hv => exact .pure (.returned hv)
    | broken => exact .pure .broken

omit hrun in
theorem result_follows {f f' : Closure} (hf : f.Thins T opened f') {flow flow' : Flow}
    (hflow : flow.Thins T opened flow') :
    T.Follows opened chain chain' (Value.Thins T) (result f flow) (result f' flow') := by
  obtain ⟨hsame, scopes, hthins, -, hinit⟩ := hf
  unfold result
  rw [show f'.isInitializer = f.isInitializer by rw [hsame],
    show f'.definition = f.definition by rw [hsame]]
  split
  · next h =>
    obtain ⟨marks, hmarks⟩ := Scopes.head?_marks (hinit h)
    rw [hmarks] at hthins
    exact .get_bind fun m m' h => orUndefined_follows _ (h.store.getAt? hthins rfl _) m m' h
  · cases hflow with
    | normal => exact .pure .nil
    | returned hv => exact .pure hv
    | broken => exact .throw _

theorem callFunction_follows {f f' : Closure} (hf : f.Thins T opened f') {vs vs' : List Value}
    (hvs : List.Forall₂ (Value.Thins T opened) vs vs') :
    T.Follows opened chain chain' (Value.Thins T) (callFunction run f vs)
      (callFunction run' f' vs') := by
  obtain ⟨scopes, hthins, hchecked, -⟩ := hf.scopes
  unfold callFunction
  rw [show f'.definition = f.definition by rw [hf.same]]
  refine (openScope_follows hthins _ hvs).bind fun _ hle inner inner' hinner => ?_
  refine (within_follows (runAll_follows hrun hinner hchecked.body fun _ _ _ => rfl)).bind
    fun _ hle' _ _ hflow => ?_
  exact result_follows (hf.further (hle.trans hle')) hflow

theorem construct_follows {c c' : Class} (hc : c.Under (T.correspondence opened) c')
    {vs vs' : List Value} (hvs : List.Forall₂ (Value.Thins T opened) vs vs') :
    T.Follows opened chain chain' (Value.Thins T) (construct run c vs) (construct run' c' vs') := by
  refine (newObject_follows hc).bind fun _ hle object object' hobject => ?_
  have hinit := (hc.further hle).method? initializerName
  generalize c.method? initializerName = method at hinit ⊢
  generalize c'.method? initializerName = method' at hinit ⊢
  cases hinit with
  | none => exact .pure hobject
  | some hm =>
    refine (bindMethod_follows hm hobject).bind fun _ hle' f f' hf => ?_
    have hvs' := List.Forall₂.imp (fun _ _ hv => hv.further (hle.trans hle')) hvs
    exact (callFunction_follows hrun hf hvs').bind fun _ hle'' _ _ _ =>
      .pure (hobject.further (hle'.trans hle''))

theorem applyCall_follows (paren : Token) {v v' : Value} (hv : v.Thins T opened v')
    {vs vs' : List Value} (hvs : List.Forall₂ (Value.Thins T opened) vs vs') :
    T.Follows opened chain chain' (Value.Thins T) (applyCall run paren v vs)
      (applyCall run' paren v' vs') := by
  have hlength := hvs.length_eq
  unfold applyCall
  rw [hv.arity?]
  cases v.arity? with
  | none => exact raise_follows _ _
  | some arity =>
    dsimp only
    rw [← hlength]
    split
    · exact raise_follows _ _
    · cases hv with
      | function hf => exact callFunction_follows hrun hf hvs
      | «class» hc => exact construct_follows hrun hc hvs
      | native f =>
        cases f with
        | clock => exact readClock_follows
      | nil | bool | number | string | object => exact raise_follows _ _

end

/-! ## Classes -/

section

variable {scopes : Scopes} (hchain : chain.Thins opened chain' scopes.marks)

include hchain

theorem superclassValue_follows {s : Superclass}
    (hs : T.Knows ⟨⟨.superclass, s.id, s.name⟩, scopes⟩) :
    T.Follows opened chain chain' (fun opened => Class.Under (T.correspondence opened))
      (superclassValue s) (superclassValue s) := by
  refine (lookUp_follows hchain hs).bind fun _ _ v v' hv => ?_
  cases hv with
  | «class» hc => exact .pure hc
  | nil | bool | number | string | native | function | object => exact raise_follows _ _

theorem superMethod_follows {id : RefId} {keyword : Token}
    (hr : T.Knows ⟨⟨.super, id, keyword⟩, scopes⟩) (method : Token) :
    T.Follows opened chain chain' (Value.Thins T) (superMethod id keyword method)
      (superMethod id keyword method) := by
  refine .get_bind fun m m' h => ?_
  have hagrees := hr.agrees
  rw [h.nested, h.direct, h.chain, h.chain']
  dsimp only at hagrees
  generalize T.nested.get? id = distance, T.direct.get? id = distance' at hagrees
  cases hagrees with
  | global => exact raise_follows keyword _ m m' h
  | scope hs hidle hsuper =>
    obtain ⟨inner, s', rfl, hs', hidle'⟩ := hsuper rfl
    obtain ⟨hmark, hcount⟩ := Scopes.marks_of_getElem? hs hidle
    obtain ⟨hmark', hcount'⟩ := Scopes.marks_of_getElem? hs' hidle'
    -- the scope of `this` is kept as well, so that it is just inside in both chains
    have hsucc : (Scopes.kept (scopes.take (inner + 1))).length =
        (Scopes.kept (scopes.take inner)).length + 1 := by
      rw [List.take_add_one, show scopes[inner]? = some s' from hs', Scopes.kept, Scopes.kept,
        List.filter_append, List.length_append, Option.toList_some,
        List.filter_cons_of_pos (by simp [hidle'])]
      rfl
    have hparent := h.store.getAt? hchain hmark keyword.lexeme
    rw [hcount] at hparent
    dsimp only at hparent ⊢
    rw [hsucc] at hparent ⊢
    refine ((orUndefined_follows _ hparent).bind fun _ hle v v' hv => ?_) m m' h
    have hobject := h.store.getAt? hchain hmark' "this"
    rw [hcount'] at hobject
    refine (orUndefined_follows _ (rel_mono (fun _ _ hv => hv.further hle) hobject)).bind
      fun _ hle' o o' ho => ?_
    cases hv with
    | nil | bool | number | string | native | function | object => exact raise_follows _ _
    | «class» hc =>
      cases ho with
      | nil | bool | number | string | native | function | «class» => exact raise_follows _ _
      | object identity hclass =>
        have hfound := (hc.further hle').method? method.lexeme
        dsimp only
        generalize Class.method? _ method.lexeme = found at hfound ⊢
        generalize Class.method? _ method.lexeme = found' at hfound ⊢
        cases hfound with
        | none => exact raise_follows _ _
        | some hf =>
          exact (bindMethod_follows hf (.object identity hclass)).bind fun _ _ _ _ h =>
            .pure (.function h)

end

/-- Methods that are declared in some scopes. -/
theorem methods_thins {outer outer' : Chain} {scopes : Scopes}
    (houter : outer.Thins opened outer' scopes.marks) {fs : List FunctionDef}
    (hfs : CheckedMethods T.Knows scopes fs) :
    ∀ f ∈ fs, (T.correspondence opened).methods ⟨f, outer⟩ ⟨f, outer'⟩ :=
  fun _ hf => ⟨rfl, scopes, houter, checked_of_mem_methods hfs hf⟩

section

variable {marks : List Bool} (hchain : chain.Thins opened chain' (false :: marks))

include hchain

/-- Make a class of its methods, its name being bound. -/
theorem makeClass_follows (name : Token) {outer outer' : Chain} {fs : List FunctionDef}
    (hfs : ∀ f ∈ fs, (T.correspondence opened).methods ⟨f, outer⟩ ⟨f, outer'⟩)
    {ancestors ancestors' : List ClassBody}
    (hancestors : List.Forall₂ (ClassBody.Under (T.correspondence opened)) ancestors ancestors')
    {m m' : Machine} (h : m.Thins T opened chain chain' m') (hbound : m.Binds name.lexeme) :
    T.Ends opened chain chain' (fun _ _ _ => True)
      ((do
        let identity ← freshIdentity
        assignInnermost name
          (.class ⟨⟨identity, name.lexeme, methodsOf outer fs⟩, ancestors⟩) : Eval Unit) m)
      ((do
        let identity ← freshIdentity
        assignInnermost name
          (.class ⟨⟨identity, name.lexeme, methodsOf outer' fs⟩, ancestors'⟩) : Eval Unit) m') := by
  have hclass : Class.Under (T.correspondence opened)
      ⟨⟨m.nextIdentity, name.lexeme, methodsOf outer fs⟩, ancestors⟩
      ⟨⟨m'.nextIdentity, name.lexeme, methodsOf outer' fs⟩, ancestors'⟩ :=
    .cons ⟨h.nextIdentity, rfl, methodsOf_under (List.forall₂_same.2 fun f hf => ⟨rfl, hfs f hf⟩)⟩
      hancestors
  exact assignInnermost_follows hchain (.class hclass)
    { h with nextIdentity := congrArg (· + 1) h.nextIdentity } hbound

end

section

variable {scopes : Scopes} (hchain : chain.Thins opened chain' scopes.marks)
  (hidle : scopes.idle = false) {name : Token} {fs : List FunctionDef}

include hchain hidle

theorem declareClass_follows_plain
    (hfs : CheckedMethods T.Knows (scopes.put name.lexeme true) fs) :
    T.Follows opened chain chain' (fun _ _ _ => True) (declareClass name none fs)
      (declareClass name none fs) := by
  obtain ⟨marks, hmarks⟩ := Scopes.head?_marks hidle
  rw [hmarks] at hchain
  intro m m' h
  unfold declareClass
  simp only [pure_bind]
  refine (define_follows hchain name.lexeme .nil m m' h).bind fun _ hle _ _ m₁ m₁' hstep _ hm => ?_
  rw [Eval.get_bind, Eval.get_bind, hm.chain, hm.chain']
  have hput : chain.Thins opened chain' (scopes.put name.lexeme true).marks := by
    rwa [Scopes.marks_put, hmarks]
  exact makeClass_follows (hchain.mono hle) name (methods_thins (hput.mono hle) hfs) .nil hm
    (binds_of_define hchain h hstep)

theorem declareClass_follows_derived {s : Superclass}
    (hs : T.Knows ⟨⟨.superclass, s.id, s.name⟩, scopes.put name.lexeme false⟩)
    (hfs : CheckedMethods T.Knows (s.scope :: scopes.put name.lexeme true) fs) :
    T.Follows opened chain chain' (fun _ _ _ => True) (declareClass name (some s) fs)
      (declareClass name (some s) fs) := by
  have hput : ∀ ready, chain.Thins opened chain' (scopes.put name.lexeme ready).marks := by
    intro ready
    rwa [Scopes.marks_put]
  obtain ⟨marks, hmarks⟩ := Scopes.head?_marks hidle
  rw [hmarks] at hchain
  unfold declareClass
  simp only [bind_map_left]
  refine (superclassValue_follows (hput false) hs).bind fun opened₁ hle c c' hc => ?_
  have hchain := hchain.mono hle
  intro m m' h
  refine (define_follows hchain name.lexeme .nil m m' h).bind fun _ hle₁ _ _ m₁ m₁' hstep _ hm => ?_
  rw [Eval.get_bind, Eval.get_bind, hm.chain, hm.chain']
  have hput := (hput true).mono (hle.trans hle₁)
  refine (openScope_follows hput ["super"] (.cons (.class (hc.further hle₁)) .nil) m₁ m₁' hm).bind
    fun _ hle₂ outer outer' m₂ m₂' hstep₂ houter hm₂ => ?_
  have hle' := hle₁.trans hle₂
  exact makeClass_follows (hchain.mono hle') name (methods_thins houter hfs) (hc.further hle') hm₂
    (binds_of_openScope (binds_of_define hchain h hstep) hstep₂)

end

/-! ## Expressions and statements -/

section

variable {ev ev' : Expr → Eval Value} {run run' : Stmt → Eval Flow} (hev : T.Evaluates ev ev')
  (hrun : T.Executes run run')

include hev hrun

theorem evaluateRound_follows : T.Evaluates (evaluateRound ev run) (evaluateRound ev' run') := by
  intro opened chain chain' scopes e hchain hk
  cases e with
  | literal value => exact .pure (toValue_under value)
  | grouping inner => exact hev (e := inner) hchain hk
  | unary operator right =>
    exact (hev (e := right) hchain hk).bind fun _ _ _ _ hv => applyUnary_follows operator hv
  | binary left operator right =>
    obtain ⟨hleft, hright⟩ := List.forall_mem_append.1 hk
    refine (hev hchain hleft).bind fun _ hle _ _ hv => ?_
    refine (hev (hchain.mono hle) hright).bind fun _ hle _ _ hw => ?_
    exact applyBinary_follows operator (hv.further hle) hw
  | logical left operator right =>
    obtain ⟨hleft, hright⟩ := List.forall_mem_append.1 hk
    refine (hev hchain hleft).bind fun _ hle v v' hv => ?_
    rw [shortCircuits_under rfl hv]
    split
    · exact .pure hv
    · exact hev (hchain.mono hle) hright
  | var id name => exact lookUp_follows hchain (hk _ (List.mem_singleton.2 rfl))
  | assign id name value =>
    obtain ⟨htarget, hvalue⟩ := List.forall_mem_cons.1 hk
    refine (hev hchain hvalue).bind fun _ hle _ _ hv => ?_
    exact (assign_follows (hchain.mono hle) htarget hv).bind fun _ hle _ _ _ =>
      .pure (hv.further hle)
  | call callee paren arguments =>
    obtain ⟨hcallee, harguments⟩ := List.forall_mem_append.1 hk
    refine (hev hchain hcallee).bind fun _ hle f f' hf => ?_
    refine (Follows.mapM (fun _ _ _ _ hle hv => hv.further hle) fun e he _ hle' =>
      hev (hchain.mono (hle.trans hle')) fun r hr => harguments r (mem_exprReferences he hr)).bind
        fun _ hle' vs vs' hvs => ?_
    exact applyCall_follows hrun paren (hf.further hle') hvs
  | get object name =>
    refine (hev (e := object) hchain hk).bind fun _ _ v v' hv => ?_
    cases hv with
    | object identity hc => exact getProperty_follows identity hc name
    | nil | bool | number | string | native | function | «class» => exact raise_follows _ _
  | set object name value =>
    obtain ⟨hobject, hvalue⟩ := List.forall_mem_append.1 hk
    refine (hev hchain hobject).bind fun _ hle v v' hv => ?_
    cases hv with
    | object identity hc =>
      refine (hev (hchain.mono hle) hvalue).bind fun _ _ _ _ hw => ?_
      refine (setField_follows identity name.lexeme hw).bind fun _ hle _ _ _ => ?_
      exact .pure (hw.further hle)
    | nil | bool | number | string | native | function | «class» => exact raise_follows _ _
  | thisRef id keyword => exact lookUp_follows hchain (hk _ (List.mem_singleton.2 rfl))
  | superRef id keyword method =>
    exact superMethod_follows hchain (hk _ (List.mem_singleton.2 rfl)) method

/-- A statement whose scope, if it opens one, is kept. -/
theorem executeRound_follows {scopes : Scopes} {s : Stmt} {inFunction inLoop : Bool}
    (hchain : chain.Thins opened chain' scopes.marks)
    (hchecked : s.Checked T.Knows scopes inFunction inLoop)
    (hdeclares : s.declares = true → scopes.idle = false)
    (hkept : ∀ body, s = .block body → isTurn body = false) :
    T.Follows opened chain chain' (Flow.Thins T) (executeRound ev run s)
      (executeRound ev' run' s) := by
  cases s with
  | expression value => exact (hev hchain hchecked).bind fun _ _ _ _ _ => .pure .normal
  | print value =>
    refine (hev hchain hchecked).bind fun _ _ v v' hv => ?_
    rw [hv.text]
    exact (printLine_follows _).bind fun _ _ _ _ _ => .pure .normal
  | var name initializer =>
    obtain ⟨marks, hmarks⟩ := Scopes.head?_marks (hdeclares rfl)
    cases initializer with
    | none =>
      rw [hmarks] at hchain
      exact (define_follows hchain name.lexeme .nil).bind fun _ _ _ _ _ => .pure .normal
    | some e =>
      have hput : chain.Thins opened chain' (scopes.put name.lexeme false).marks := by
        rwa [Scopes.marks_put]
      rw [hmarks] at hchain
      refine (hev hput hchecked.2).bind fun _ hle _ _ hv => ?_
      refine (define_follows (hchain.mono hle) name.lexeme hv).bind fun _ _ _ _ _ => ?_
      exact .pure .normal
  | block body =>
    refine .get_bind fun m m' hm => ?_
    rw [hm.chain, hm.chain']
    refine ((openScope_follows hchain [] .nil).bind fun _ _ inner inner' hinner => ?_) m m' hm
    have hidle : Scopes.idle (⟨.block body, []⟩ :: scopes) = false := hkept body rfl
    refine within_follows (runAll_follows hrun ?_ hchecked fun _ _ _ => hidle)
    rwa [Scopes.marks_cons, show Scope.isIdle (.block body) = false from hidle]
  | ifElse condition thenBranch elseBranch =>
    cases elseBranch with
    | none =>
      obtain ⟨hcondition, hthen, hthen'⟩ := hchecked
      refine (hev hchain hcondition).bind fun _ hle v v' hv => ?_
      rw [hv.isTruthy]
      split
      · exact hrun (hchain.mono hle) hthen (by simp [hthen'])
      · exact .pure .normal
    | some elseBranch =>
      obtain ⟨hcondition, ⟨hthen, hthen'⟩, helse, helse'⟩ := hchecked
      refine (hev hchain hcondition).bind fun _ hle v v' hv => ?_
      rw [hv.isTruthy]
      split
      · exact hrun (hchain.mono hle) hthen (by simp [hthen'])
      · exact hrun (hchain.mono hle) helse (by simp [helse'])
  | loop condition body =>
    obtain ⟨hcondition, hbody, hbody'⟩ := hchecked
    refine (hev hchain hcondition).bind fun _ hle v v' hv => ?_
    rw [hv.isTruthy]
    split
    · refine (hrun (hchain.mono hle) hbody (by simp [hbody'])).bind
        fun _ hle' flow flow' hflow => ?_
      cases hflow with
      | normal =>
        have hloop : (Stmt.loop condition body).Checked T.Knows scopes inFunction inLoop :=
          ⟨hcondition, hbody, hbody'⟩
        exact hrun (hchain.mono (hle.trans hle')) hloop nofun
      | broken => exact .pure .normal
      | returned hv => exact .pure (.returned hv)
    · exact .pure .normal
  | function definition =>
    have hput : chain.Thins opened chain' (scopes.put definition.name.lexeme true).marks := by
      rwa [Scopes.marks_put]
    obtain ⟨marks, hmarks⟩ := Scopes.head?_marks (hdeclares rfl)
    rw [hmarks] at hchain
    refine (close_follows hput hchecked.2).bind fun _ hle v v' hv => ?_
    refine (define_follows (hchain.mono hle) _ hv).bind fun _ _ _ _ _ => ?_
    exact .pure .normal
  | ret keyword value =>
    cases value with
    | none => exact .pure (.returned .nil)
    | some value => exact (hev hchain hchecked.2).bind fun _ _ _ _ hv => .pure (.returned hv)
  | brk keyword => exact .pure .broken
  | classDef name superclass methods =>
    cases superclass with
    | none =>
      exact (declareClass_follows_plain hchain (hdeclares rfl) hchecked.2).bind
        fun _ _ _ _ _ => .pure .normal
    | some s =>
      exact (declareClass_follows_derived hchain (hdeclares rfl) hchecked.2.1 hchecked.2.2).bind
        fun _ _ _ _ _ => .pure .normal

end

/-- With the same fuel, programs run as they run directly. -/
theorem evaluate_execute_follows (fuel : Nat) :
    T.Evaluates (evaluate fuel) (Direct.evaluate fuel) ∧
      T.Executes (execute fuel) (Direct.execute fuel) := by
  induction fuel with
  | zero => exact ⟨fun _ _ => .throw _, fun _ _ _ => .throw _⟩
  | succ fuel ih =>
    obtain ⟨evaluates, executes⟩ := ih
    constructor
    · rw [show evaluate (fuel + 1) = evaluateRound (evaluate fuel) (execute fuel) from
        funext (evaluate_succ fuel)]
      exact evaluateRound_follows evaluates executes
    · intro opened chain chain' scopes s inFunction inLoop hchain hchecked hdeclares
      rw [execute_succ]
      by_cases hturn : ∃ body, s = .block body ∧ isTurn body = true
      · -- the only place where the two interpreters differ
        obtain ⟨body, rfl, hturn⟩ := hturn
        rw [Direct.execute_turn fuel hturn, executeRound]
        refine Follows.idle hchain fun opened' _ inner hinner => ?_
        refine runAll_follows executes ?_ hchecked fun s hs hd => ?_
        · rwa [Scopes.marks_cons, show Scope.isIdle (.block body) = true from hturn]
        · exact Bool.noConfusion (hd.symm.trans (not_declares_of_isTurn hturn s hs))
      · have hkept : ∀ body, s = .block body → isTurn body = false := fun body hs =>
          Bool.eq_false_iff.2 fun h => hturn ⟨body, hs, h⟩
        rw [Direct.execute_other fuel hkept]
        exact executeRound_follows evaluates executes hchain hchecked hdeclares hkept

/-- A program runs as it runs directly. -/
theorem runProgram_follows (fuel : Nat) {program : List Stmt}
    (h : CheckedStmts T.Knows [] false false program) (hglobal : IsKept opened 0) :
    T.Follows opened globalChain globalChain (fun _ _ _ => True) (runProgram fuel program)
      (Direct.runProgram fuel program) := by
  have hchain : Chain.Thins opened globalChain globalChain (Scopes.marks []) := .kept hglobal .nil
  refine (runAll_follows (evaluate_execute_follows fuel).2 hchain h fun _ _ _ => rfl).bind
    fun _ _ flow flow' hflow => ?_
  cases hflow with
  | normal => exact flush_follows
  | returned _ => exact .throw _
  | broken => exact .throw _

end Tables

end Lox
