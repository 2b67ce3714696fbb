import Lox.Proofs.Run.Parts
import Lox.Proofs.Run.Reaching
import Lox.Proofs.Run.Sources

set_option autoImplicit false

/-! # A full output only cuts a run off

Beside a run with an output that takes everything, take the run with an output that is full after
some lines. The second does what the first does until a line is printed that the output does not
take any more (`Truncates`). There it stops, with at most the text of this line written, but not its
end, and nothing else changes after that. -/

namespace Lox

open Eval

/-- The machine with an output that is full after some lines. -/
def Machine.limited (n : Nat) (m : Machine) : Machine :=
  { m with output := { m.output with limit := some n } }

/-- The lines that are printed in what begins at a point, each with the machine that prints it. -/
def Point.Prints (p : Point) (text : String) (m : Machine) : Prop := p.Contains (.print text, m)

theorem Point.Part.prints {p q : Point} (hpart : p.Part q) (text : String) (m : Machine)
    (h : q.Prints text m) : p.Prints text m :=
  hpart.contains h

namespace Eval

variable {α β : Type}

/-- The machine after a step, however it ends. -/
def endOf : EStateM.Result Stop Machine α → Machine
  | .ok _ m | .error _ m => m

/-- The same end with a different machine. -/
def mapEnd (f : Machine → Machine) : EStateM.Result Stop Machine α → EStateM.Result Stop Machine α
  | .ok a m => .ok a (f m)
  | .error stop m => .error stop (f m)

/-! ## Steps that do not write -/

/-- A step that has nothing to do with the output. -/
def Silent (x : Eval α) : Prop :=
  ∀ m out, x { m with output := out } = mapEnd (fun m' => { m' with output := out }) (x m)

namespace Silent

variable {x : Eval α}

theorem pure (a : α) : Silent (Pure.pure a : Eval α) := fun _ _ => rfl

theorem throw (stop : Stop) : Silent (MonadExcept.throw stop : Eval α) := fun _ _ => rfl

theorem bind {k : α → Eval β} (hx : x.Silent) (hk : ∀ a, (k a).Silent) : (x >>= k).Silent := by
  intro m out
  have hx := hx m out
  simp only [Bind.bind, EStateM.bind]
  rw [hx]
  cases x m with
  | ok a m' => exact hk a m' out
  | error stop m' => rfl

/-- A step that looks at the machine first, but not at its output. -/
theorem get {k : Machine → Eval α} (hk : ∀ m, (k m).Silent)
    (hout : ∀ m out, k { m with output := out } = k m) : (MonadState.get >>= k).Silent := by
  intro m out
  rw [get_bind, get_bind, hout]
  exact hk m m out

/-- Such a step leaves the output as it is. -/
theorem output (h : x.Silent) (m : Machine) : (endOf (x m)).output = m.output := by
  have h : x m = _ := h m m.output
  generalize x m = r at h
  cases r with
  | ok a m' | error stop m' =>
    injection h with _ h
    have hout := congrArg Machine.output h
    exact hout

end Silent

theorem raise_silent (token : Token) (problem : RuntimeProblem) :
    (raise token problem : Eval α).Silent := .throw _

theorem orUndefined_silent (name : Token) (o : Option α) : (orUndefined name o).Silent := by
  cases o with
  | none => exact raise_silent _ _
  | some a => exact .pure a

theorem define_silent (name : String) (value : Value) : (define name value).Silent :=
  fun _ _ => rfl

theorem lookUp_silent (id : RefId) (name : Token) : (lookUp id name).Silent :=
  .get (fun _ => orUndefined_silent _ _) fun _ _ => rfl

theorem bindIn_silent (frame : FrameId) (name : String) (value : Value) :
    (bindIn frame name value).Silent := fun _ _ => rfl

theorem assign_silent (id : RefId) (name : Token) (value : Value) :
    (assign id name value).Silent :=
  .get (fun _ => (orUndefined_silent _ _).bind fun _ => bindIn_silent _ _ _) fun _ _ => rfl

theorem assignInnermost_silent (name : Token) (value : Value) :
    (assignInnermost name value).Silent :=
  .get (fun _ => (orUndefined_silent _ _).bind fun _ => bindIn_silent _ _ _) fun _ _ => rfl

theorem openScope_silent (outer : Chain) (bindings : List (String × Value)) :
    (openScope outer bindings).Silent := fun _ _ => rfl

theorem freshIdentity_silent : freshIdentity.Silent := fun _ _ => rfl

theorem close_silent (definition : FunctionDef) : (close definition).Silent := fun _ _ => rfl

theorem bindMethod_silent (method : Method) (object : Value) :
    (bindMethod method object).Silent := fun _ _ => rfl

theorem newObject_silent (c : Class) : (newObject c).Silent := fun _ _ => rfl

theorem getProperty_silent (identity : Nat) (c : Class) (name : Token) :
    (getProperty identity c name).Silent := by
  refine .get (fun m => ?_) fun _ _ => rfl
  cases m.objects[identity]?.bind (·.find? name.lexeme) with
  | some value => exact .pure value
  | none =>
    cases c.method? name.lexeme with
    | none => exact raise_silent _ _
    | some method => exact (bindMethod_silent _ _).bind fun _ => .pure _

theorem setField_silent (identity : Nat) (name : String) (value : Value) :
    (setField identity name value).Silent := fun _ _ => rfl

theorem readClock_silent : readClock.Silent := fun _ _ => rfl

end Eval

theorem applyUnary_silent (operator : Token) (v : Value) : (applyUnary operator v).Silent := by
  unfold applyUnary
  split <;> first | exact .pure _ | exact raise_silent _ _

theorem applyBinary_silent (operator : Token) (a b : Value) :
    (applyBinary operator a b).Silent := by
  unfold applyBinary
  split
  case h_6 => split <;> first | exact .pure _ | exact raise_silent _ _
  all_goals first | exact .pure _ | exact raise_silent _ _

theorem result_silent (f : Closure) (flow : Flow) : (result f flow).Silent := by
  unfold result
  split
  · exact .get (fun _ => orUndefined_silent _ _) fun _ _ => rfl
  · cases flow with
    | broken => exact .throw _
    | _ => exact .pure _

theorem superclassValue_silent (s : Superclass) : (superclassValue s).Silent := by
  refine (lookUp_silent _ _).bind fun v => ?_
  cases v with
  | «class» c => exact .pure c
  | _ => exact raise_silent _ _

theorem declareClass_silent (name : Token) (superclass : Option Superclass)
    (methods : List FunctionDef) : (declareClass name superclass methods).Silent := by
  have hmake : ∀ chain parents, (do
      let identity ← freshIdentity
      let body : ClassBody := ⟨identity, name.lexeme, methodsOf chain methods⟩
      assignInnermost name (.class ⟨body, parents⟩)).Silent :=
    fun _ _ => freshIdentity_silent.bind fun _ => assignInnermost_silent _ _
  unfold declareClass
  cases superclass with
  | none => exact (define_silent _ _).bind fun _ => .get (fun m => hmake m.chain []) fun _ _ => rfl
  | some s =>
    simp only [bind_map_left]
    refine (superclassValue_silent s).bind fun parent => ?_
    refine (define_silent _ _).bind fun _ => ?_
    refine .get (fun m => ?_) fun _ _ => rfl
    exact (openScope_silent _ _).bind fun chain => hmake chain parent.lineage

theorem superMethod_silent (id : RefId) (keyword method : Token) :
    (superMethod id keyword method).Silent := by
  refine .get (fun m => ?_) fun _ _ => rfl
  cases m.distances.get? id with
  | none => exact raise_silent _ _
  | some distance =>
    refine (orUndefined_silent _ _).bind fun parent => ?_
    cases distance with
    | zero => exact .throw _
    | succ inner =>
      refine (orUndefined_silent _ _).bind fun object => ?_
      split
      · next c identity origin =>
        cases c.method? method.lexeme with
        | none => exact raise_silent _ _
        | some found => exact (bindMethod_silent _ _).bind fun _ => .pure _
      · exact raise_silent _ _

/-! ## Runs with a full output -/

/-- A machine that stopped in the middle of a line. It is as it was when the line was begun, but for
    what was written, and is back in the scope it came from. -/
structure Machine.StopsIn (n : Nat) (text : String) (m m' : Machine) : Prop where
  full : n ≤ m'.output.lines
  same : ∃ written, (written = "" ∨ written = text) ∧
    m' = { m with chain := m'.chain, output := (m.limited n).output.append written }

/-- All that a stopped machine has written is the beginning of what is written if the line is. -/
theorem Machine.StopsIn.begins {n : Nat} {text : String} {m m' : Machine} (h : m.StopsIn n text m')
    {out : Output} (hline : (m.output.append (text ++ "\n")).Grows out) :
    ∃ rest, out.text = m'.output.text ++ rest := by
  obtain ⟨-, written, hwritten, hsame⟩ := h
  obtain ⟨rest, rfl⟩ := hline
  have hout : m'.output.text = m.output.text ++ written := by
    rw [hsame]
    rfl
  rw [hout]
  rcases hwritten with rfl | rfl
  · exact ⟨text ++ "\n" ++ rest, by simp [Output.append, String.append_assoc]⟩
  · exact ⟨"\n" ++ rest, by simp [Output.append, String.append_assoc]⟩

/-- Where an output takes everything, a run may end alike when it is limited. Otherwise the limited
    run stops in one of the lines that are printed, and all the text before it and of the line itself
    is part of the whole text. -/
inductive Truncated {α : Type} (n : Nat) (prints : String → Machine → Prop) :
    EStateM.Result Stop Machine α → EStateM.Result Stop Machine α → Prop
  | ok (a m) : Truncated n prints (.ok a (m.limited n)) (.ok a m)
  | error (stop m) : Truncated n prints (.error stop (m.limited n)) (.error stop m)
  | full {text m m' r} : prints text m → m.StopsIn n text m' →
      (m.output.append (text ++ "\n")).Grows (endOf r).output →
      Truncated n prints (.error (.error (.output .full)) m') r

/-- A step that is begun in a machine with an output that takes everything and in the same machine
    with a limited one. -/
structure Truncates {α : Type} (n : Nat) (prints : String → Machine → Prop) (x : Eval α)
    (m : Machine) : Prop where
  grows : m.output.Grows (endOf (x m)).output
  ends : Truncated n prints (x (m.limited n)) (x m)

namespace Truncates

variable {α β : Type} {n : Nat} {prints : String → Machine → Prop} {x : Eval α} {m : Machine}

theorem of_silent (h : x.Silent) : Truncates n prints x m where
  grows := by
    rw [h.output]
    exact ⟨"", m.output.append_empty.symm⟩
  ends := by
    have hout := h.output m
    have hlimited : x (m.limited n) = _ := h m _
    rw [hlimited]
    generalize x m = r at hout
    cases r with
    | ok a m' =>
      rw [← show m'.output = m.output from hout]
      exact .ok a m'
    | error stop m' =>
      rw [← show m'.output = m.output from hout]
      exact .error stop m'

theorem pure (a : α) : Truncates n prints (Pure.pure a) m := of_silent (.pure a)

theorem mono {prints' : String → Machine → Prop} (h : Truncates n prints x m)
    (hprints : ∀ text m, prints text m → prints' text m) : Truncates n prints' x m where
  grows := h.grows
  ends := by
    have hends := h.ends
    generalize x (m.limited n) = limited at hends ⊢
    generalize x m = r at hends ⊢
    cases hends with
    | ok => exact .ok _ _
    | error => exact .error _ _
    | full hprint hstops hline => exact .full (hprints _ _ hprint) hstops hline

/-- What is printed in a part of a run is printed in the run. -/
theorem part {p q : Point} (h : Truncates n q.Prints x m) (hpart : p.Part q) :
    Truncates n p.Prints x m :=
  h.mono hpart.prints

theorem bind {k : α → Eval β} (h : Truncates n prints x m) (hm : m.output.Unfailing)
    (hk : ∀ a m', x m = .ok a m' → m'.output.Unfailing → Truncates n prints (k a) m') :
    Truncates n prints (x >>= k) m := by
  obtain ⟨hgrows, hends⟩ := h
  cases hx : x m with
  | error stop m' =>
    have hrun : (x >>= k) m = .error stop m' := by simp only [Bind.bind, EStateM.bind, hx]
    rw [hx] at hgrows hends
    refine ⟨by rwa [hrun], ?_⟩
    rw [hrun]
    simp only [Bind.bind, EStateM.bind]
    generalize x (m.limited n) = limited at hends ⊢
    cases hends with
    | error => exact .error _ _
    | full hprint hstops hline => exact .full hprint hstops hline
  | ok a m' =>
    have hrun : (x >>= k) m = k a m' := by simp only [Bind.bind, EStateM.bind, hx]
    rw [hx] at hgrows hends
    obtain ⟨hgrows', hends'⟩ := hk a m' hx (hm.grows hgrows)
    refine ⟨by rw [hrun]; exact hgrows.trans hgrows', ?_⟩
    rw [hrun]
    simp only [Bind.bind, EStateM.bind]
    generalize x (m.limited n) = limited at hends ⊢
    cases hends with
    | ok => exact hends'
    | full hprint hstops hline =>
      -- the whole goes on, and what it writes comes behind the line that was cut off
      exact .full hprint hstops (hline.trans hgrows')

/-- A step that looks at the machine first, but not at its output. -/
theorem get {k : Machine → Eval α} (hout : k (m.limited n) = k m)
    (h : Truncates n prints (k m) m) : Truncates n prints (MonadState.get >>= k) m where
  grows := h.grows
  ends := by
    rw [get_bind, get_bind, hout]
    exact h.ends

theorem within {chain : Chain} (h : Truncates n prints x { m with chain }) :
    Truncates n prints (Eval.within chain x) m := by
  obtain ⟨hgrows, hends⟩ := h
  have hends : Truncated n prints (x { m.limited n with chain }) (x { m with chain }) := hends
  constructor
  · unfold Eval.within
    generalize x { m with chain } = r at hgrows ⊢
    cases r <;> exact hgrows
  · unfold Eval.within
    generalize x { m with chain } = r at hends ⊢
    generalize x { m.limited n with chain } = limited at hends ⊢
    cases hends with
    | ok a m' => exact .ok a { m' with chain := m.chain }
    | error stop m' => exact .error stop { m' with chain := m.chain }
    | @full text m' stopped _ hprint hstops hline =>
      have hstops' : m'.StopsIn n text { stopped with chain := m.chain } := by
        obtain ⟨hfull, written, hwritten, hsame⟩ := hstops
        refine ⟨hfull, written, hwritten, ?_⟩
        rw [hsame]
      refine .full hprint hstops' ?_
      cases r <;> exact hline

end Truncates

namespace Eval

variable {n : Nat} {m : Machine}

theorem flush_truncates {prints : String → Machine → Prop} (hm : m.output.Unfailing) :
    Truncates n prints flush m := by
  have hflush : ∀ m : Machine, m.output.flushFails = false → flush m = .ok () m := by
    intro m hm
    rw [flush, get_bind, hm]
    rfl
  constructor
  · rw [hflush m hm.flushFails]
    exact ⟨"", m.output.append_empty.symm⟩
  · rw [hflush m hm.flushFails, hflush (m.limited n) hm.flushFails]
    exact .ok () m

/-- An output takes a chunk or is full. -/
theorem write_limited (chunk : String) (m : Machine) :
    write chunk (m.limited n) =
        .ok () (Machine.limited n { m with output := m.output.append chunk }) ∨
      write chunk (m.limited n) = .error (.error (.output .full)) (m.limited n) ∧
        n ≤ m.output.lines := by
  unfold write
  rw [get_bind]
  split
  · exact .inl rfl
  · next h =>
    simp only [Output.accepts, Output.isFull, Machine.limited, Bool.or_eq_true, not_or,
      Bool.not_eq_true, Bool.not_eq_false'] at h
    exact .inr ⟨rfl, of_decide_eq_true h.2⟩

theorem printLine_truncates (hm : m.output.Unfailing) (text : String) :
    Truncates n (Point.Prints (.print text, m)) (printLine text) m := by
  have hwrite : ∀ (chunk : String) (m : Machine), m.output.Unfailing →
      write chunk m = .ok () { m with output := m.output.append chunk } := by
    intro chunk m hm
    rw [write, get_bind, hm.accepts]
    rfl
  have hfirst := hwrite text m hm
  have hsecond := hwrite "\n" { m with output := m.output.append text } (hm.grows ⟨text, rfl⟩)
  have hprint : printLine text m = .ok () { m with output := m.output.append (text ++ "\n") } := by
    simp only [printLine, Bind.bind, EStateM.bind, hfirst, hsecond, Output.append_append]
  have hline : (m.output.append (text ++ "\n")).Grows (endOf (printLine text m)).output := by
    rw [hprint]
    exact ⟨"", (Output.append_empty _).symm⟩
  refine ⟨?_, ?_⟩
  · rw [hprint]
    exact ⟨text ++ "\n", rfl⟩
  -- the text is refused, or the end of the line, or nothing
  have hlimited : printLine text (m.limited n) =
      (write text >>= fun _ => write "\n") (m.limited n) := rfl
  simp only [Bind.bind, EStateM.bind] at hlimited
  rw [hlimited]
  rcases write_limited (n := n) text m with htext | ⟨htext, hfull⟩
  · rw [htext]
    dsimp only
    rcases write_limited (n := n) "\n" { m with output := m.output.append text } with
      hend | ⟨hend, hfull⟩
    · rw [hend, hprint, ← Output.append_append]
      exact .ok () { m with output := (m.output.append text).append "\n" }
    · rw [hend]
      exact .full (.refl _) ⟨hfull, text, .inr rfl, rfl⟩ hline
  · rw [htext]
    refine .full (.refl _) ⟨hfull, "", .inl rfl, ?_⟩ hline
    rw [Output.append_empty]
    rfl

end Eval

/-! ## Expressions and statements -/

/-- Evaluating any expression on a limited output. -/
def EvaluatesTruncated (n fuel : Nat) : Prop :=
  ∀ (e : Expr) {m : Machine}, m.output.Unfailing →
    Truncates n (Point.Prints (.evaluate fuel e, m)) (evaluate fuel e) m

/-- Executing any statement on a limited output. -/
def ExecutesTruncated (n fuel : Nat) : Prop :=
  ∀ (s : Stmt) {m : Machine}, m.output.Unfailing →
    Truncates n (Point.Prints (.execute fuel s, m)) (execute fuel s) m

section

variable {n fuel : Nat}

theorem evaluateAll_truncates (hevaluate : EvaluatesTruncated n fuel) (es : List Expr) {m : Machine}
    (hm : m.output.Unfailing) :
    Truncates n (Point.Prints (.evaluateAll fuel es, m)) (es.mapM (evaluate fuel)) m := by
  induction es generalizing m with
  | nil =>
    rw [List.mapM_nil]
    exact .pure []
  | cons e es ih =>
    rw [List.mapM_cons]
    refine ((hevaluate e hm).part .argument).bind hm fun v m₁ hv hm₁ => ?_
    refine ((ih hm₁).part (.otherArguments hv)).bind hm₁ fun vs m₂ _ _ => ?_
    exact .pure (v :: vs)

variable (hexecute : ExecutesTruncated n fuel)

include hexecute

theorem runAll_truncates (ss : List Stmt) {m : Machine} (hm : m.output.Unfailing) :
    Truncates n (Point.Prints (.runAll fuel ss, m)) (runAll (execute fuel) ss) m := by
  induction ss generalizing m with
  | nil => exact .pure Flow.normal
  | cons s ss ih =>
    refine ((hexecute s hm).part .statement).bind hm fun flow m₁ hflow hm₁ => ?_
    cases flow with
    | normal => exact (ih hm₁).part (.otherStatements hflow)
    | _ => exact .pure _

variable {m : Machine} (hm : m.output.Unfailing)

include hm

theorem callFunction_truncates (f : Closure) (vs : List Value) :
    Truncates n (Point.Prints (.call fuel f vs, m)) (callFunction (execute fuel) f vs) m := by
  refine (Truncates.of_silent (openScope_silent _ _)).bind hm fun chain m' hopen hm' => ?_
  have hbody : Truncates n (Point.Prints (.call fuel f vs, m))
      (within chain (runAll (execute fuel) f.definition.body)) m' :=
    (runAll_truncates hexecute f.definition.body (m := { m' with chain }) hm').within.part
      (.body hopen)
  exact hbody.bind hm' fun flow _ _ _ => .of_silent (result_silent f flow)

theorem construct_truncates (c : Class) (vs : List Value) :
    Truncates n (Point.Prints (.construct fuel c vs, m)) (construct (execute fuel) c vs) m := by
  refine (Truncates.of_silent (newObject_silent c)).bind hm fun object m' hobject hm' => ?_
  cases hmethod : c.method? initializerName with
  | none => exact .pure object
  | some method =>
    refine (Truncates.of_silent (bindMethod_silent method object)).bind hm' fun f _ hf hm'' => ?_
    have hcall := (callFunction_truncates hexecute hm'' f vs).part (.initializer hobject hmethod hf)
    exact hcall.bind hm'' fun _ _ _ _ => .pure object

/-- A value is called with the arguments of a call expression. -/
theorem applyCall_truncates {p : Point} (paren : Token) (callee : Value) (vs : List Value)
    (hcall : ∀ f, callee = .function f → vs.length = f.definition.params.length →
      p.Part (.call fuel f vs, m))
    (hconstruct : ∀ c, callee = .class c → vs.length = c.arity →
      p.Part (.construct fuel c vs, m)) :
    Truncates n p.Prints (applyCall (execute fuel) paren callee vs) m := by
  unfold applyCall
  cases harity : callee.arity? with
  | none => exact .of_silent (raise_silent _ _)
  | some arity =>
    dsimp only
    split
    · exact .of_silent (raise_silent _ _)
    · next hlength =>
      have hlength : vs.length = arity := Decidable.not_not.1 hlength
      cases callee with
      | function f =>
        cases harity
        exact (callFunction_truncates hexecute hm f vs).part (hcall f rfl hlength)
      | «class» c =>
        cases harity
        exact (construct_truncates hexecute hm c vs).part (hconstruct c rfl hlength)
      | native f =>
        cases f with
        | clock => exact .of_silent readClock_silent
      | _ => exact .of_silent (raise_silent _ _)

end

section

variable {n fuel : Nat} (hevaluate : EvaluatesTruncated n fuel) (hexecute : ExecutesTruncated n fuel)

include hevaluate hexecute

/-- An expression, if this is known of what is one step less deep. -/
theorem EvaluatesTruncated.succ : EvaluatesTruncated n (fuel + 1) := by
  intro e m hm
  cases e with
  | literal value => exact .pure value.toValue
  | var id name => exact .of_silent (lookUp_silent id name)
  | thisRef id keyword => exact .of_silent (lookUp_silent id keyword)
  | superRef id keyword method => exact .of_silent (superMethod_silent id keyword method)
  | grouping inner => exact (hevaluate inner hm).part .grouping
  | unary operator right =>
    refine ((hevaluate right hm).part .operand).bind hm fun v m₁ _ _ => ?_
    exact .of_silent (applyUnary_silent operator v)
  | binary left operator right =>
    refine ((hevaluate left hm).part .left).bind hm fun a m₁ ha hm₁ => ?_
    refine ((hevaluate right hm₁).part (.right ha)).bind hm₁ fun b m₂ _ _ => ?_
    exact .of_silent (applyBinary_silent operator a b)
  | logical left operator right =>
    refine ((hevaluate left hm).part .first).bind hm fun a m₁ ha hm₁ => ?_
    cases hshort : shortCircuits operator a with
    | true => exact .pure a
    | false => exact (hevaluate right hm₁).part (.second ha hshort)
  | assign id name value =>
    refine ((hevaluate value hm).part .assigned).bind hm fun v m₁ _ _ => ?_
    have hassign : Silent (do assign id name v; return v) :=
      (assign_silent id name v).bind fun _ => .pure v
    exact .of_silent hassign
  | call callee paren arguments =>
    refine ((hevaluate callee hm).part .callee).bind hm fun f m₁ hf hm₁ => ?_
    have harguments := evaluateAll_truncates hevaluate arguments hm₁
    refine (harguments.part (.arguments hf)).bind hm₁ fun vs m₂ hvs hm₂ => ?_
    refine applyCall_truncates hexecute hm₂ paren f vs (fun g heq hsize => ?_) fun c heq hsize => ?_
    · subst heq
      exact .call hf hvs hsize
    · subst heq
      exact .construct hf hvs hsize
  | get object name =>
    refine ((hevaluate object hm).part .object).bind hm fun v m₁ _ _ => ?_
    cases v with
    | object identity c => exact .of_silent (getProperty_silent identity c name)
    | _ => exact .of_silent (raise_silent _ _)
  | set object name value =>
    refine ((hevaluate object hm).part .target).bind hm fun target m₁ htarget hm₁ => ?_
    cases target with
    | object identity c =>
      refine ((hevaluate value hm₁).part (.value htarget)).bind hm₁ fun v m₂ _ _ => ?_
      have hset : Silent (do setField identity name.lexeme v; return v) :=
        (setField_silent identity name.lexeme v).bind fun _ => .pure v
      exact .of_silent hset
    | _ => exact .of_silent (raise_silent _ _)

/-- A statement, if this is known of what is one step less deep. -/
theorem ExecutesTruncated.succ : ExecutesTruncated n (fuel + 1) := by
  intro s m hm
  cases s with
  | expression value =>
    refine ((hevaluate value hm).part .expression).bind hm fun v m₁ _ _ => ?_
    exact .pure _
  | print value =>
    refine ((hevaluate value hm).part .printed).bind hm fun v m₁ hv hm₁ => ?_
    refine ((printLine_truncates hm₁ v.text).part (.print hv)).bind hm₁ fun _ m₂ _ _ => ?_
    exact .pure _
  | var name initializer =>
    cases initializer with
    | none => exact .of_silent ((define_silent _ _).bind fun _ => .pure _)
    | some initializer =>
      refine ((hevaluate initializer hm).part .bound).bind hm fun v m₁ _ _ => ?_
      exact .of_silent ((define_silent _ _).bind fun _ => .pure _)
  | block body =>
    refine .get rfl ?_
    have hopened : Truncates n (Point.Prints (.execute (fuel + 1) (.block body), m))
        (openScope m.chain []) m := .of_silent (openScope_silent _ _)
    refine hopened.bind hm fun chain m₁ hopen hm₁ => ?_
    have hbody := runAll_truncates hexecute body (m := { m₁ with chain }) hm₁
    exact hbody.within.part (.block hopen)
  | ifElse condition thenBranch elseBranch =>
    refine ((hevaluate condition hm).part .condition).bind hm fun v m₁ hv hm₁ => ?_
    cases htruthy : v.isTruthy with
    | true =>
      rw [if_pos rfl]
      exact (hexecute thenBranch hm₁).part (.thenBranch hv htruthy)
    | false =>
      rw [if_neg Bool.false_ne_true]
      cases elseBranch with
      | none => exact .pure _
      | some elseBranch => exact (hexecute elseBranch hm₁).part (.elseBranch hv htruthy)
  | loop condition body =>
    refine ((hevaluate condition hm).part .loopCondition).bind hm fun v m₁ hv hm₁ => ?_
    cases htruthy : v.isTruthy with
    | true =>
      rw [if_pos rfl]
      refine ((hexecute body hm₁).part (.loopBody hv htruthy)).bind hm₁ fun flow m₂ hflow hm₂ => ?_
      cases flow with
      | normal =>
        have hagain := hexecute (.loop condition body) hm₂
        exact hagain.part (.loopAgain hv htruthy hflow)
      | _ => exact .pure _
    | false =>
      rw [if_neg Bool.false_ne_true]
      exact .pure _
  | function definition =>
    refine .of_silent ((close_silent definition).bind fun f => ?_)
    exact (define_silent _ _).bind fun _ => .pure _
  | ret keyword value =>
    cases value with
    | none => exact .pure _
    | some value =>
      refine ((hevaluate value hm).part .returned).bind hm fun v m₁ _ _ => ?_
      exact .pure _
  | brk keyword => exact .pure _
  | classDef name superclass methods =>
    exact .of_silent ((declareClass_silent name superclass methods).bind fun _ => .pure _)

end

/-- However deep the steps are, an output that is full only cuts them off. -/
theorem evaluate_execute_truncate (n fuel : Nat) :
    EvaluatesTruncated n fuel ∧ ExecutesTruncated n fuel := by
  induction fuel with
  | zero => exact ⟨fun _ _ _ => .of_silent (.throw _), fun _ _ _ => .of_silent (.throw _)⟩
  | succ fuel ih =>
    obtain ⟨hevaluate, hexecute⟩ := ih
    exact ⟨hevaluate.succ hexecute, hexecute.succ hevaluate⟩

/-! ## Sources -/

theorem runProgram_truncates (n fuel : Nat) (program : List Stmt) {m : Machine}
    (hm : m.output.Unfailing) :
    Truncates n (Point.Prints (.runAll fuel program, m)) (runProgram fuel program) m := by
  have hrun := runAll_truncates (evaluate_execute_truncate n fuel).2 program hm
  refine hrun.bind hm fun flow m₁ _ hm₁ => ?_
  cases flow with
  | normal => exact flush_truncates hm₁
  | _ => exact .of_silent (.throw _)

/-- An output that began without text has counted the ends of the lines in its text. -/
theorem Output.Grows.lines {limit : Option Nat} {flushFails : Bool} {out : Output}
    (h : (Output.start limit flushFails).Grows out) : out.lines = Output.lineEnds out.text := by
  obtain ⟨text, rfl⟩ := h
  simp [Output.append, Output.start]

namespace Session

/-- The session with a new output, which takes everything or is full after some lines. -/
def onto (session : Session) (limit : Option Nat) : Session :=
  { session with machine := { session.machine with output := .start limit false } }

/-- **A full output only cuts a run off.** In whatever state a session is, take the run of a source
    whose output is full after `n` lines, and the same run with an output that takes everything. Both
    end alike, or the first one stops with the one error of its output. Then there is a line printed
    in the run of the whole at which it stopped: its machine is as it was there, but for the text of
    this line, which may be written, though not its end. Its output is full, and its text is the
    beginning of the whole text. -/
theorem full_output_truncates (session : Session) (fuel n : Nat) (source : List UInt8) :
    let whole := (session.onto none).run fuel source
    let limited := (session.onto (some n)).run fuel source
    limited = (whole.1, ⟨whole.2.machine.limited n, whole.2.nextId⟩) ∨
      limited.1 = ⟨.runtimeError, [.output .full]⟩ ∧
        limited.2.nextId = whole.2.nextId ∧
        n ≤ Output.lineEnds limited.2.machine.output.text ∧
        (∃ rest, whole.2.machine.output.text = limited.2.machine.output.text ++ rest) ∧
        ∃ text m,
          Point.Prints (.runAll fuel (session.parsed source).tree, (session.onto none).prepared source)
            text m ∧
          ∃ written, (written = "" ∨ written = text) ∧
            limited.2.machine = { m with
              chain := session.machine.chain
              output := (m.limited n).output.append written } := by
  intro whole limited
  have hm : ((session.onto none).prepared source).output.Unfailing := ⟨rfl, rfl⟩
  have hends := (runProgram_truncates n fuel (session.parsed source).tree hm).ends
  have hmoves := runProgram_moves fuel (session.parsed source).tree
    (((session.onto none).prepared source).limited n)
  have hwhole := (session.onto none).run_eq source fuel
  have hlimited := (session.onto (some n)).run_eq source fuel
  rw [show whole = _ from hwhole, show limited = _ from hlimited]
  rw [show (session.onto (some n)).prepared source =
    ((session.onto none).prepared source).limited n from rfl,
    show (session.onto (some n)).staticErrors source = (session.onto none).staticErrors source from rfl,
    show (session.onto (some n)).parsed source = session.parsed source from rfl,
    show (session.onto none).parsed source = session.parsed source from rfl]
  split
  · generalize runProgram fuel (session.parsed source).tree
      (((session.onto none).prepared source).limited n) = limited at hends hmoves ⊢
    generalize runProgram fuel (session.parsed source).tree
      ((session.onto none).prepared source) = whole at hends ⊢
    cases hends with
    | ok | error => exact .inl rfl
    | @full text m stopped _ hprint hstops hline =>
      cases hmoves with
      | error hreaches _ =>
        have hbegins := hstops.begins hline
        obtain ⟨hfull, written, hwritten, hsame⟩ := hstops
        have hchain : stopped.chain = session.machine.chain := hreaches.chain
        have hgrows : (Output.start (some n) false).Grows stopped.output := hreaches.output
        have hsame : stopped = { m with
            chain := session.machine.chain
            output := (m.limited n).output.append written } := hchain ▸ hsame
        cases whole with
        | ok | error =>
          exact .inr ⟨rfl, rfl, hgrows.lines ▸ hfull, hbegins, text, m, hprint, written, hwritten,
            hsame⟩
  · exact .inl rfl

/-- The text of a line may end within the last line that the output takes. -/
example :
    let session := (start (.start none false) fun _ => 0).onto (some 1)
    let limited := session.run 10 (bytesOf "print \"a\nb\";print 1;")
    limited.1.status = .runtimeError ∧ limited.2.machine.output.text = "a\nb" := by decide +kernel

end Session

end Lox
