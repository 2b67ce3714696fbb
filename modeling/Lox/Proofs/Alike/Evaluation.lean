import Lox.Proofs.Alike.Machines
import Lox.Proofs.Alike.Operators

set_option autoImplicit false

/-! # Alike programs run alike

On alike machines, alike expressions have alike values and alike statements end in the same way, for
every bound on the number of steps. The two runs write the same text, and where one stops, the other
stops for the same reason. -/

namespace Lox

open Eval

variable {L : Likeness} {known known' : Distances}

/-- Two statements that end alike. -/
inductive Flow.Alike (L : Likeness) : Flow → Flow → Prop
  | normal : Flow.Alike L .normal .normal
  | returned {v v' : Value} : v.Alike L v' → Flow.Alike L (.returned v) (.returned v')
  | broken : Flow.Alike L .broken .broken

/-! ## Operators -/

section

variable {lines : Nat} {operator : Token}

theorem runs_of_answers (ht : L.moves lines operator) {x y : Eval Value}
    (h : Answers L.correspondence operator (operator.down lines) x y) :
    Runs L known known' (Value.Alike L) x y := by
  cases h with
  | value h => exact .pure (Value.alike_iff_under.2 h)
  | problem problem => exact raise_runs ht problem

variable {v v' w w' : Value} (hv : v.Alike L v')

include hv

theorem applyUnary_runs (ht : L.moves lines operator) :
    Runs L known known' (Value.Alike L) (applyUnary operator v)
      (applyUnary (operator.down lines) v') :=
  runs_of_answers ht (applyUnary_answers (operator.down_kind lines) (Value.alike_iff_under.1 hv))

theorem applyBinary_runs (ht : L.moves lines operator) (hw : w.Alike L w') :
    Runs L known known' (Value.Alike L) (applyBinary operator v w)
      (applyBinary (operator.down lines) v' w') :=
  runs_of_answers ht (applyBinary_answers (operator.down_kind lines) (Value.alike_iff_under.1 hv)
    (Value.alike_iff_under.1 hw))

end

/-! ## Calls -/

/-- Two ways to evaluate expressions that do the same with alike ones. -/
def EvaluatesAlike (L : Likeness) (known known' : Distances) (ev ev' : Expr → Eval Value) : Prop :=
  ∀ lines e e', e.Alike lines (L.moves lines) L.ids e' →
    Runs L known known' (Value.Alike L) (ev e) (ev' e')

/-- Two ways to run statements that do the same with alike ones. -/
def RunsAlike (L : Likeness) (known known' : Distances) (run run' : Stmt → Eval Flow) : Prop :=
  ∀ lines s s', s.Alike lines (L.moves lines) L.ids s' →
    Runs L known known' (Flow.Alike L) (run s) (run' s')

section

variable {run run' : Stmt → Eval Flow}

theorem runAll_runs {P : Stmt → Stmt → Prop}
    (hrun : ∀ s s', P s s' → Runs L known known' (Flow.Alike L) (run s) (run' s'))
    {ss ss' : List Stmt} (hss : List.Forall₂ P ss ss') :
    Runs L known known' (Flow.Alike L) (runAll run ss) (runAll run' ss') := by
  induction hss with
  | nil => exact .pure .normal
  | cons hs _ ih =>
    refine (hrun _ _ hs).bind fun flow flow' hflow => ?_
    cases hflow with
    | normal => exact ih
    | returned hv => exact .pure (.returned hv)
    | broken => exact .pure .broken

theorem result_runs {f f' : Closure} (hf : f.Alike L f') {flow flow' : Flow}
    (hflow : flow.Alike L flow') :
    Runs L known known' (Value.Alike L) (result f flow) (result f' flow') := by
  obtain ⟨lines, hd⟩ := hf.definition
  unfold result
  rw [hf.isInitializer, hf.chain, hd.name]
  split
  · exact Matches.get_bind fun m m' h =>
      orUndefined_runs (L.moves_this lines _ hd.moved_name) (h.store.getAt? _ _ _) m m' h
  · cases hflow with
    | normal => exact .pure .nil
    | returned hv => exact .pure hv
    | broken => exact .throw .impossible

variable (hrun : RunsAlike L known known' run run')

include hrun

theorem callFunction_runs {f f' : Closure} (hf : f.Alike L f') {vs vs' : List Value}
    (hvs : List.Forall₂ (Value.Alike L) vs vs') :
    Runs L known known' (Value.Alike L) (callFunction run f vs) (callFunction run' f' vs') := by
  obtain ⟨lines, hd⟩ := hf.definition
  have hnames : f'.definition.params.map (·.lexeme) = f.definition.params.map (·.lexeme) := by
    rw [hd.params, List.map_map]
    rfl
  unfold callFunction
  rw [hnames, hf.chain]
  refine (openScope_runs f.chain (bindingsAlike_zip _ hvs)).bind fun chain _ hchain => ?_
  subst hchain
  exact (within_runs chain (runAll_runs (hrun lines) hd.body)).bind fun _ _ hflow =>
    result_runs hf hflow

theorem construct_runs {c c' : Class} (hc : c.Alike L c') {vs vs' : List Value}
    (hvs : List.Forall₂ (Value.Alike L) vs vs') :
    Runs L known known' (Value.Alike L) (construct run c vs) (construct run' c' vs') := by
  refine (newObject_runs hc).bind fun object object' hobject => ?_
  have hinit := hc.method? initializerName
  generalize c.method? initializerName = method at hinit ⊢
  generalize c'.method? initializerName = method' at hinit ⊢
  cases hinit with
  | none => exact .pure hobject
  | some hm =>
    refine (bindMethod_runs hm hobject).bind fun f f' hf => ?_
    refine (callFunction_runs hrun hf hvs).bind fun _ _ _ => ?_
    exact .pure hobject

theorem applyCall_runs {lines : Nat} {paren : Token} (ht : L.moves lines paren) {v v' : Value}
    (hv : v.Alike L v') {vs vs' : List Value} (hvs : List.Forall₂ (Value.Alike L) vs vs') :
    Runs L known known' (Value.Alike L) (applyCall run paren v vs)
      (applyCall run' (paren.down lines) v' vs') := by
  have hlength := hvs.length_eq
  unfold applyCall
  rw [hv.arity?]
  cases v.arity? with
  | none => exact raise_runs ht _
  | some arity =>
    dsimp only
    rw [← hlength]
    split
    · exact raise_runs ht _
    · cases hv with
      | function hf => exact callFunction_runs hrun hf hvs
      | «class» hc => exact construct_runs hrun hc hvs
      | native f =>
        cases f with
        | clock => exact readClock_runs
      | nil | bool | number | string | object => exact raise_runs ht _

end

/-! ## Classes -/

section

variable (hd : known.Alike L.ids known')

include hd

theorem superclassValue_runs {lines : Nat} {s s' : Superclass}
    (hs : s.Alike lines (L.moves lines) L.ids s') :
    Runs L known known' (Class.Alike L) (superclassValue s) (superclassValue s') := by
  cases hs with
  | mk ht hid =>
    refine (lookUp_runs ht hd hid).bind fun v v' hv => ?_
    cases hv with
    | «class» hc => exact .pure hc
    | nil | bool | number | string | native | function | object => exact raise_runs ht _

theorem declareClass_runs {lines : Nat} {name : Token} (ht : L.moves lines name)
    {s s' : Option Superclass} {fs fs' : List FunctionDef}
    (hs : Option.Rel (Superclass.Alike lines (L.moves lines) L.ids) s s')
    (hfs : List.Forall₂ (FunctionDef.Alike lines (L.moves lines) L.ids) fs fs') :
    Runs L known known' (fun _ _ => True) (declareClass name s fs)
      (declareClass (name.down lines) s' fs') := by
  -- Once the scope of the methods is there, both make their class in the same way.
  have hmake : ∀ (chain : Chain) (parent parent' : Option Class),
      List.Forall₂ (ClassBody.Alike L) ((parent.map Class.lineage).getD [])
          ((parent'.map Class.lineage).getD []) →
        Runs L known known' (fun _ _ => True)
          (do
            let identity ← freshIdentity
            assignInnermost name (.class
              ⟨⟨identity, name.lexeme, methodsOf chain fs⟩, (parent.map Class.lineage).getD []⟩))
          (do
            let identity ← freshIdentity
            assignInnermost (name.down lines) (.class
              ⟨⟨identity, name.lexeme, methodsOf chain fs'⟩,
                (parent'.map Class.lineage).getD []⟩)) := by
    refine fun chain parent parent' hlineage => freshIdentity_runs.bind fun identity _ hi => ?_
    subst hi
    exact assignInnermost_runs ht
      (.class (.cons ⟨rfl, rfl, methodsOf_alike chain hfs⟩ hlineage))
  cases hs with
  | none =>
    unfold declareClass
    simp only [pure_bind]
    refine (define_runs _ .nil).bind fun _ _ _ => Matches.get_bind fun m m' hm => ?_
    have hmade := hmake m.chain none none .nil m m' hm
    rw [← hm.chain] at hmade ⊢
    exact hmade
  | some hs =>
    unfold declareClass
    simp only [bind_map_left]
    refine (superclassValue_runs hd hs).bind fun parent parent' hparent => ?_
    refine (define_runs _ .nil).bind fun _ _ _ => ?_
    refine Matches.get_bind fun m m' hm => ?_
    rw [hm.chain]
    refine ((openScope_runs m.chain (bindingsAlike_one "super" (.class hparent))).bind
      fun chain _ hchain => ?_) m m' hm
    subst hchain
    exact hmake chain (some parent) (some parent') hparent

theorem superMethod_runs {lines : Nat} {keyword method : Token} (hk : L.moves lines keyword)
    (hm : L.moves lines method) {id id' : RefId} (hid : L.ids id id') :
    Runs L known known' (Value.Alike L) (superMethod id keyword method)
      (superMethod id' (keyword.down lines) (method.down lines)) := by
  refine Matches.get_bind fun m m' h => ?_
  rw [h.distances hd id id' hid, h.chain]
  cases m.distances.get? id with
  | none => exact raise_runs hk _ m m' h
  | some distance =>
    refine ((orUndefined_runs hk (h.store.getAt? _ _ _)).bind fun v v' hv => ?_) m m' h
    cases distance with
    | zero => exact .throw .impossible
    | succ inner =>
      refine (orUndefined_runs (L.moves_this lines keyword hk) (h.store.getAt? _ _ _)).bind
        fun o o' ho => ?_
      cases hv with
      | nil | bool | number | string | native | function | object => exact raise_runs hm _
      | «class» hc =>
        cases ho with
        | nil | bool | number | string | native | function | «class» => exact raise_runs hm _
        | object identity hobject =>
          have hfound := hc.method? method.lexeme
          dsimp only
          rw [Token.down_lexeme]
          generalize Class.method? _ method.lexeme = found at hfound ⊢
          generalize Class.method? _ method.lexeme = found' at hfound ⊢
          cases hfound with
          | none => exact raise_runs hm _
          | some hf =>
            exact (bindMethod_runs hf (.object identity hobject)).bind fun _ _ h =>
              .pure (.function h)

end

/-! ## Expressions and statements -/

section

variable (hd : known.Alike L.ids known') {fuel : Nat}
  (hevaluate : EvaluatesAlike L known known' (evaluate fuel) (evaluate fuel))
  (hexecute : RunsAlike L known known' (execute fuel) (execute fuel))

include hd hevaluate hexecute

/-- An expression, if this is known of what is one step less deep. -/
theorem EvaluatesAlike.succ :
    EvaluatesAlike L known known' (evaluate (fuel + 1)) (evaluate (fuel + 1)) := by
  intro lines e e' he
  cases he with
  | literal value => exact .pure (Value.alike_iff_under.2 (toValue_under value))
  | grouping h => exact hevaluate _ _ _ h
  | unary ht h => exact (hevaluate _ _ _ h).bind fun _ _ hv => applyUnary_runs hv ht
  | binary ht h h' =>
    refine (hevaluate _ _ _ h).bind fun _ _ hv => ?_
    refine (hevaluate _ _ _ h').bind fun _ _ hw => ?_
    exact applyBinary_runs hv ht hw
  | @logical operator _ _ _ _ ht h h' =>
    refine (hevaluate _ _ _ h).bind fun v v' hv => ?_
    rw [shortCircuits_under (operator.down_kind lines) (Value.alike_iff_under.1 hv)]
    split
    · exact .pure hv
    · exact hevaluate _ _ _ h'
  | var ht hid => exact lookUp_runs ht hd hid
  | assign ht hid h =>
    refine (hevaluate _ _ _ h).bind fun _ _ hv => ?_
    refine (assign_runs ht hd hid hv).bind fun _ _ _ => ?_
    exact .pure hv
  | call ht h hes =>
    refine (hevaluate _ _ _ h).bind fun _ _ hv => ?_
    refine (Matches.mapM (hevaluate lines) hes).bind fun _ _ hvs => ?_
    exact applyCall_runs hexecute ht hv hvs
  | get ht h =>
    refine (hevaluate _ _ _ h).bind fun v v' hv => ?_
    cases hv with
    | object identity hc => exact getProperty_runs identity hc ht
    | nil | bool | number | string | native | function | «class» => exact raise_runs ht _
  | @set name _ _ _ _ ht h h' =>
    refine (hevaluate _ _ _ h).bind fun v v' hv => ?_
    cases hv with
    | object identity hc =>
      refine (hevaluate _ _ _ h').bind fun _ _ hw => ?_
      refine (setField_runs identity name.lexeme hw).bind fun _ _ _ => ?_
      exact .pure hw
    | nil | bool | number | string | native | function | «class» => exact raise_runs ht _
  | thisRef ht hid => exact lookUp_runs ht hd hid
  | superRef hk hm hid => exact superMethod_runs hd hk hm hid

/-- A statement, if this is known of what is one step less deep. -/
theorem RunsAlike.succ :
    RunsAlike L known known' (execute (fuel + 1)) (execute (fuel + 1)) := by
  intro lines s s' hs
  cases hs with
  | expression h => exact (hevaluate _ _ _ h).bind fun _ _ _ => .pure .normal
  | print h =>
    refine (hevaluate _ _ _ h).bind fun v v' hv => ?_
    rw [hv.text]
    exact (printLine_runs _).bind fun _ _ _ => .pure .normal
  | @var name _ _ _ h =>
    cases h with
    | none => exact (define_runs name.lexeme .nil).bind fun _ _ _ => .pure .normal
    | some h =>
      refine (hevaluate _ _ _ h).bind fun _ _ hv => ?_
      refine (define_runs name.lexeme hv).bind fun _ _ _ => ?_
      exact .pure .normal
  | block hss =>
    refine Matches.get_bind fun m m' hm => ?_
    rw [hm.chain]
    refine ((openScope_runs m.chain .nil).bind fun chain _ hchain => ?_) m m' hm
    subst hchain
    exact within_runs chain (runAll_runs (hexecute lines) hss)
  | ifElse hc h ho =>
    refine (hevaluate _ _ _ hc).bind fun v v' hv => ?_
    rw [hv.isTruthy]
    split
    · exact hexecute _ _ _ h
    · cases ho with
      | none => exact .pure .normal
      | some ho => exact hexecute _ _ _ ho
  | loop hc h =>
    refine (hevaluate _ _ _ hc).bind fun v v' hv => ?_
    rw [hv.isTruthy]
    split
    · refine (hexecute _ _ _ h).bind fun flow flow' hflow => ?_
      cases hflow with
      | normal => exact hexecute _ _ _ (.loop hc h)
      | broken => exact .pure .normal
      | returned hv => exact .pure (.returned hv)
    · exact .pure .normal
  | function hf =>
    refine (close_runs ⟨lines, hf⟩).bind fun v v' hv => ?_
    rw [hf.name]
    exact (define_runs _ hv).bind fun _ _ _ => .pure .normal
  | ret _ h =>
    cases h with
    | none => exact .pure (.returned .nil)
    | some h => exact (hevaluate _ _ _ h).bind fun _ _ hv => .pure (.returned hv)
  | brk _ => exact .pure .broken
  | classDef ht hs hfs =>
    exact (declareClass_runs hd ht hs hfs).bind fun _ _ _ => .pure .normal

end

/-- With the same fuel, alike expressions and alike statements run alike. -/
theorem evaluate_execute_runs (hd : known.Alike L.ids known') (fuel : Nat) :
    EvaluatesAlike L known known' (evaluate fuel) (evaluate fuel) ∧
      RunsAlike L known known' (execute fuel) (execute fuel) := by
  induction fuel with
  | zero => exact ⟨fun _ _ _ _ => .throw .outOfFuel, fun _ _ _ _ => .throw .outOfFuel⟩
  | succ fuel ih =>
    obtain ⟨hevaluate, hexecute⟩ := ih
    exact ⟨.succ hd hevaluate hexecute, .succ hd hevaluate hexecute⟩

section

variable (hd : known.Alike L.ids known') {lines : Nat} (fuel : Nat)

include hd

theorem evaluate_runs {e e' : Expr} (h : e.Alike lines (L.moves lines) L.ids e') :
    Runs L known known' (Value.Alike L) (evaluate fuel e) (evaluate fuel e') :=
  (evaluate_execute_runs hd fuel).1 lines e e' h

theorem executeAll_runs {ss ss' : List Stmt}
    (h : List.Forall₂ (Stmt.Alike lines (L.moves lines) L.ids) ss ss') :
    Runs L known known' (Flow.Alike L) (runAll (execute fuel) ss) (runAll (execute fuel) ss') :=
  runAll_runs ((evaluate_execute_runs hd fuel).2 lines) h

/-- Alike programs run alike. -/
theorem runProgram_runs {ss ss' : List Stmt}
    (h : List.Forall₂ (Stmt.Alike lines (L.moves lines) L.ids) ss ss') :
    Runs L known known' (fun _ _ => True) (runProgram fuel ss) (runProgram fuel ss') := by
  refine (executeAll_runs hd fuel h).bind fun flow flow' hflow => ?_
  cases hflow with
  | normal => exact flush_runs
  | returned _ => exact .throw .impossible
  | broken => exact .throw .impossible

end

end Lox
