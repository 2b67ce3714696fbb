import Lox.Proofs.Alike.Machines
import Lox.Proofs.Run.Calls
import Lox.Proofs.Run.Parts
import Lox.Proofs.Run.Rounds

set_option autoImplicit false

/-! # Objects are numbered

The identity of a new object is the number of objects that there are. Every object that a variable or
a field holds was made before (`Machine.Counted`), so it has a smaller identity. A run keeps this, and
every value that comes of it is one that was there or was made in the run (`evaluate_counts`,
`execute_counts`), as are all values with which something is called in it (`Point.Counted`). -/

namespace Lox

open Eval

variable {α β : Type} {n n' : Nat}

/-! ## Machines -/

/-- The identity of an object is below a number. -/
def Value.Below (n : Nat) : Value → Prop
  | .object identity _ => identity < n
  | _ => True

theorem Value.Below.mono {v : Value} (h : v.Below n) (hn : n ≤ n') : v.Below n' := by
  cases v with
  | object identity c => exact Nat.lt_of_lt_of_le h hn
  | _ => trivial

theorem Value.Simple.below {v : Value} (h : v.Simple) : v.Below n := by
  cases v <;> trivial

/-- An object with a larger identity is another one. -/
theorem Value.Below.equals {v : Value} (h : v.Below n) (hn : n ≤ n') (c : Class) :
    v.equals (.object n' c) = false := by
  cases v with
  | object identity c' => exact beq_false_of_ne (Nat.ne_of_lt (Nat.lt_of_lt_of_le h hn))
  | _ => rfl

/-- All objects that variables and fields hold have been made. -/
structure Machine.Counted (m : Machine) : Prop where
  values : ∀ frame name v, m.store.lookup? frame name = some v → v.Below m.objects.size
  fields : ∀ identity name v, fieldOf? m.objects identity name = some v → v.Below m.objects.size

/-- A machine that differs in other things than values. -/
theorem Machine.Counted.of_eq {m m' : Machine} (h : m.Counted) (hstore : m'.store = m.store)
    (hobjects : m'.objects = m.objects) : m'.Counted where
  values := by rw [hstore, hobjects]; exact h.values
  fields := by rw [hobjects]; exact h.fields

theorem Machine.counted_start (output : Output) (reading : Nat → Float) :
    (Machine.start output reading).Counted where
  values _ _ v h := by
    rcases Store.lookup?_of_bindIn _ _ h with ⟨-, -, rfl⟩ | h
    · trivial
    · rw [Store.lookup?_openIn] at h
      simp [Store.lookup?, Store.empty] at h
  fields _ _ v h := by simp [fieldOf?, Machine.start] at h

/-! ## Steps -/

/-- A step in a machine with at least `n` objects. However it ends, all objects have been made, and
    its result is as `P` says of the number that there are then. -/
def Eval.Counts (n : Nat) (x : Eval α) (P : Nat → α → Prop) : Prop :=
  ∀ m : Machine, m.Counted → n ≤ m.objects.size →
    match x m with
    | .ok a m' => m'.Counted ∧ m.objects.size ≤ m'.objects.size ∧ P m'.objects.size a
    | .error _ m' => m'.Counted

namespace Eval.Counts

variable {x : Eval α} {P : Nat → α → Prop}

theorem pure {a : α} (h : ∀ n', n ≤ n' → P n' a) : Counts n (Pure.pure a) P :=
  fun _ hm hn => ⟨hm, Nat.le_refl _, h _ hn⟩

theorem value {v : Value} (h : v.Below n) :
    Counts n (Pure.pure v) fun n' v => v.Below n' :=
  .pure fun _ => h.mono

theorem throw (stop : Stop) : Counts n (MonadExcept.throw stop : Eval α) P := fun _ hm _ => hm

theorem bind {k : α → Eval β} {Q : Nat → β → Prop} (hx : Counts n x P)
    (hk : ∀ a n', n ≤ n' → P n' a → Counts n' (k a) Q) : Counts n (x >>= k) Q := by
  intro m hm hn
  have hx := hx m hm hn
  simp only [Bind.bind, EStateM.bind]
  cases hrun : x m with
  | error stop m' =>
    rw [hrun] at hx
    exact hx
  | ok a m' =>
    rw [hrun] at hx
    obtain ⟨hm', hle, ha⟩ := hx
    have hk := hk a m'.objects.size (Nat.le_trans hn hle) ha m' hm' (Nat.le_refl _)
    dsimp only
    cases hrest : k a m' with
    | error stop m'' =>
      rw [hrest] at hk
      exact hk
    | ok b m'' =>
      rw [hrest] at hk
      exact ⟨hk.1, Nat.le_trans hle hk.2.1, hk.2.2⟩

theorem mono {P' : Nat → α → Prop} (hx : Counts n x P) (h : ∀ n' a, P n' a → P' n' a) :
    Counts n x P' := by
  intro m hm hn
  have hx := hx m hm hn
  cases hrun : x m with
  | error stop m' =>
    rw [hrun] at hx
    exact hx
  | ok a m' =>
    rw [hrun] at hx
    exact ⟨hx.1, hx.2.1, h _ _ hx.2.2⟩

/-- A step that looks at the machine first. -/
theorem get {k : Machine → Eval α}
    (h : ∀ m : Machine, m.Counted → n ≤ m.objects.size → Counts m.objects.size (k m) P) :
    Counts n (MonadState.get >>= k) P :=
  fun m hm hn => h m hm hn m hm (Nat.le_refl _)

theorem within (hx : Counts n x P) (chain : Chain) : Counts n (Eval.within chain x) P := by
  intro m hm hn
  have hx := hx { m with chain } (hm.of_eq rfl rfl) hn
  unfold Eval.within
  cases hrun : x { m with chain } with
  | error stop m' =>
    rw [hrun] at hx
    exact hx.of_eq rfl rfl
  | ok a m' =>
    rw [hrun] at hx
    exact ⟨hx.1.of_eq rfl rfl, hx.2⟩

theorem mapM {f : β → Eval Value} (h : ∀ b n, Counts n (f b) fun n' v => v.Below n') (bs : List β)
    (n : Nat) : Counts n (bs.mapM f) fun n' vs => ∀ v ∈ vs, v.Below n' := by
  induction bs generalizing n with
  | nil =>
    rw [List.mapM_nil]
    exact .pure fun _ _ => List.forall_mem_nil _
  | cons b bs ih =>
    rw [List.mapM_cons]
    refine (h b n).bind fun v n₁ _ hv => ?_
    refine (ih n₁).bind fun vs n₂ hn₂ hvs => .pure fun n₃ hn₃ => ?_
    have hhead : v.Below n₃ := hv.mono (Nat.le_trans hn₂ hn₃)
    exact List.forall_mem_cons.2 ⟨hhead, fun w hw => (hvs w hw).mono hn₃⟩

/-- What a step that counts leads to if it succeeds. -/
theorem of_ok (hx : Counts n x P) {m m' : Machine} {a : α} (h : x m = .ok a m') (hm : m.Counted)
    (hn : n ≤ m.objects.size) :
    m'.Counted ∧ m.objects.size ≤ m'.objects.size ∧ P m'.objects.size a := by
  have hx := hx m hm hn
  rw [h] at hx
  exact hx

end Eval.Counts

/-- A step that changes output and clock at most makes no object. -/
theorem Aside.counts {y : Eval α} {P : α → Prop} (h : Aside y P) : Counts n y fun _ a => P a := by
  intro m hm hn
  obtain ⟨output, clock, h⟩ := h m
  cases hrun : y m with
  | ok a m' =>
    rw [hrun] at h
    obtain ⟨rfl, ha⟩ := h
    exact ⟨hm.of_eq rfl rfl, Nat.le_refl _, ha⟩
  | error stop m' =>
    rw [hrun] at h
    obtain ⟨rfl, -⟩ := h
    exact hm.of_eq rfl rfl

namespace Eval

variable {P : Nat → α → Prop}

theorem raise_counts (token : Token) (problem : RuntimeProblem) :
    Counts n (raise token problem : Eval α) P := .throw _

theorem orUndefined_counts (name : Token) {o : Option α}
    (h : ∀ a, o = some a → ∀ n', n ≤ n' → P n' a) : Counts n (orUndefined name o) P := by
  cases o with
  | none => exact raise_counts _ _
  | some a => exact .pure (h a rfl)

theorem bindIn_counts (frame : FrameId) (name : String) {v : Value} (hv : v.Below n) :
    Counts n (bindIn frame name v) fun _ _ => True := by
  refine fun m hm hn => ⟨⟨fun other key w hw => ?_, hm.fields⟩, Nat.le_refl _, trivial⟩
  rcases Store.lookup?_of_bindIn m.store frame hw with ⟨-, -, rfl⟩ | hw
  · exact hv.mono hn
  · exact hm.values other key w hw

theorem define_counts (name : String) {v : Value} (hv : v.Below n) :
    Counts n (define name v) fun _ _ => True := by
  rintro ⟨store, objects, nextIdentity, chain, distances, output, clock⟩ hm hn
  cases chain with
  | nil => exact ⟨hm, Nat.le_refl _, trivial⟩
  | cons frame _ => exact bindIn_counts frame name hv _ hm hn

theorem lookUp_counts (id : RefId) (name : Token) :
    Counts n (lookUp id name) fun n' v => v.Below n' := by
  refine .get fun m hm _ => orUndefined_counts name fun v hv n' hn' => ?_
  have hfound : ∃ frame, m.store.lookup? frame name.lexeme = some v := by
    split at hv
    · exact Store.lookup?_of_getAt? hv
    · exact Store.lookup?_of_get? hv
  obtain ⟨frame, hv⟩ := hfound
  exact (hm.values _ _ _ hv).mono hn'

theorem assign_counts (id : RefId) (name : Token) {v : Value} (hv : v.Below n) :
    Counts n (assign id name v) fun _ _ => True :=
  .get fun _ _ hn => (orUndefined_counts (P := fun _ _ => True) name fun _ _ _ _ => trivial).bind
    fun frame _ hn' _ => bindIn_counts frame _ (hv.mono (Nat.le_trans hn hn'))

theorem assignInnermost_counts (name : Token) {v : Value} (hv : v.Below n) :
    Counts n (assignInnermost name v) fun _ _ => True :=
  .get fun _ _ hn => (orUndefined_counts (P := fun _ _ => True) name fun _ _ _ _ => trivial).bind
    fun frame _ hn' _ => bindIn_counts frame _ (hv.mono (Nat.le_trans hn hn'))

theorem openScope_counts (outer : Chain) {bindings : List (String × Value)}
    (hb : ∀ b ∈ bindings, b.2.Below n) : Counts n (openScope outer bindings) fun _ _ => True := by
  refine fun m hm hn => ⟨⟨fun frame name v hv => ?_, hm.fields⟩, Nat.le_refl _, trivial⟩
  have hv : ((m.store.openIn outer).2.bindAll m.store.frames.size bindings).lookup? frame name =
      some v := hv
  rcases Store.lookup?_of_bindAll hv with ⟨-, hmem⟩ | hv
  · exact (hb _ hmem).mono hn
  · rw [Store.lookup?_openIn] at hv
    exact hm.values frame name v hv

theorem freshIdentity_counts : Counts n freshIdentity fun _ _ => True :=
  fun _ hm _ => ⟨hm.of_eq rfl rfl, Nat.le_refl _, trivial⟩

theorem close_counts (definition : FunctionDef) :
    Counts n (close definition) fun n' v => v.Below n' :=
  freshIdentity_counts.bind fun _ _ _ _ => .get fun _ _ _ => .pure fun _ _ => trivial

theorem bindMethod_counts (method : Method) {object : Value} (ho : object.Below n) :
    Counts n (bindMethod method object) fun _ _ => True := by
  refine (openScope_counts method.chain (List.forall_mem_singleton.2 ho)).bind fun _ _ _ _ => ?_
  refine freshIdentity_counts.bind fun _ _ _ _ => ?_
  exact .pure fun _ _ => trivial

/-- The only step that makes an object. -/
theorem newObject_counts (c : Class) : Counts n (newObject c) fun n' v => v.Below n' := by
  intro m hm _
  have hsize : (m.objects.push []).size = m.objects.size + 1 := Array.size_push _
  have hle : m.objects.size ≤ (m.objects.push []).size := hsize ▸ Nat.le_succ _
  refine ⟨⟨fun frame name v hv => (hm.values frame name v hv).mono hle,
    fun identity name v hv => ?_⟩, hle, hsize ▸ Nat.lt_succ_self _⟩
  have hv : fieldOf? (m.objects.push []) identity name = some v := hv
  refine (hm.fields identity name v ?_).mono hle
  unfold fieldOf? at hv ⊢
  rw [Array.getElem?_push] at hv
  split at hv
  · cases hv
  · exact hv

theorem getProperty_counts {identity : Nat} {c : Class} (h : (Value.object identity c).Below n)
    (name : Token) : Counts n (getProperty identity c name) fun n' v => v.Below n' := by
  refine .get fun m hm hn => ?_
  cases hfield : m.objects[identity]?.bind (·.find? name.lexeme) with
  | some v => exact .value (hm.fields identity name.lexeme v hfield)
  | none =>
    cases c.method? name.lexeme with
    | none => exact raise_counts _ _
    | some method =>
      exact (bindMethod_counts method (h.mono hn)).bind fun _ _ _ _ => .pure fun _ _ => trivial

theorem setField_counts (identity : Nat) (name : String) {v : Value} (hv : v.Below n) :
    Counts n (setField identity name v) fun _ _ => True := by
  intro m hm hn
  have hsize : (m.objects.modify identity (·.bind name v)).size = m.objects.size :=
    Array.size_modify
  -- a field is changed, but there are as many objects as before
  refine ⟨⟨fun frame key w hw => ?_, fun other key w hw => ?_⟩, Nat.le_of_eq hsize.symm, trivial⟩
  · show w.Below (m.objects.modify identity _).size
    rw [hsize]
    exact hm.values frame key w hw
  · show w.Below (m.objects.modify identity _).size
    have hw : fieldOf? (m.objects.modify identity (·.bind name v)) other key = some w := hw
    rw [fieldOf?_modify] at hw
    rw [hsize]
    split at hw
    · cases hw
      exact hv.mono hn
    · exact hm.fields other key w hw

end Eval

/-! ## Calls and classes -/

/-- A value that is returned is an object that has been made, if it is one. -/
def Flow.Below (n : Nat) : Flow → Prop
  | .returned v => v.Below n
  | _ => True

section

variable {run : Stmt → Eval Flow}
  (hrun : ∀ s n, Counts n (run s) fun n' flow => flow.Below n')

include hrun

theorem runAll_counts (ss : List Stmt) (n : Nat) :
    Counts n (runAll run ss) fun n' flow => flow.Below n' := by
  induction ss generalizing n with
  | nil => exact .pure fun _ _ => trivial
  | cons s ss ih =>
    refine (hrun s n).bind fun flow n₁ _ hflow => ?_
    cases flow with
    | normal => exact ih n₁
    | returned v => exact .pure fun _ => hflow.mono
    | broken => exact .pure fun _ _ => trivial

omit hrun in
theorem result_counts (f : Closure) {flow : Flow} (hflow : flow.Below n) :
    Counts n (result f flow) fun n' v => v.Below n' := by
  unfold result
  split
  · refine .get fun m hm _ => orUndefined_counts _ fun v hv n' hn' => ?_
    obtain ⟨frame, hv⟩ := Store.lookup?_of_getAt? hv
    exact (hm.values _ _ _ hv).mono hn'
  · cases flow with
    | normal => exact .value trivial
    | returned v => exact .value hflow
    | broken => exact .throw _

theorem callFunction_counts (f : Closure) {vs : List Value} (hvs : ∀ v ∈ vs, v.Below n) :
    Counts n (callFunction run f vs) fun n' v => v.Below n' := by
  refine (openScope_counts f.chain fun b hb => hvs _ (List.of_mem_zip hb).2).bind
    fun chain n₁ _ _ => ?_
  refine ((runAll_counts hrun _ n₁).within chain).bind fun flow n₂ _ hflow => ?_
  exact result_counts f hflow

theorem construct_counts (c : Class) {vs : List Value} (hvs : ∀ v ∈ vs, v.Below n) :
    Counts n (construct run c vs) fun n' v => v.Below n' := by
  refine (newObject_counts c).bind fun object n₁ hn₁ hobject => ?_
  cases c.method? initializerName with
  | none => exact .value hobject
  | some method =>
    refine (bindMethod_counts method hobject).bind fun f n₂ hn₂ _ => ?_
    have hcall := callFunction_counts hrun f fun v hv => (hvs v hv).mono (Nat.le_trans hn₁ hn₂)
    exact hcall.bind fun _ n₃ hn₃ _ => .value (hobject.mono (Nat.le_trans hn₂ hn₃))

theorem applyCall_counts (paren : Token) (callee : Value) {vs : List Value}
    (hvs : ∀ v ∈ vs, v.Below n) :
    Counts n (applyCall run paren callee vs) fun n' v => v.Below n' := by
  unfold applyCall
  cases callee.arity? with
  | none => exact raise_counts _ _
  | some arity =>
    dsimp only
    split
    · exact raise_counts _ _
    · cases callee with
      | function f => exact callFunction_counts hrun f hvs
      | «class» c => exact construct_counts hrun c hvs
      | native f =>
        cases f
        exact aside_readClock.counts.mono fun _ _ hv => hv.below
      | _ => exact raise_counts _ _

end

theorem superclassValue_counts (s : Superclass) :
    Counts n (superclassValue s) fun _ _ => True := by
  refine (lookUp_counts s.id s.name).bind fun v _ _ _ => ?_
  cases v with
  | «class» c => exact .pure fun _ _ => trivial
  | _ => exact raise_counts _ _

theorem declareClass_counts (name : Token) (superclass : Option Superclass)
    (methods : List FunctionDef) :
    Counts n (declareClass name superclass methods) fun _ _ => True := by
  have hmake : ∀ n chain parents, Counts n (do
      let identity ← freshIdentity
      let body : ClassBody := ⟨identity, name.lexeme, methodsOf chain methods⟩
      assignInnermost name (.class ⟨body, parents⟩)) fun _ _ => True :=
    fun _ _ _ => freshIdentity_counts.bind fun _ _ _ _ => assignInnermost_counts _ trivial
  unfold declareClass
  cases superclass with
  | none =>
    exact (define_counts _ (v := .nil) trivial).bind fun _ _ _ _ =>
      .get fun m _ _ => hmake _ m.chain []
  | some s =>
    simp only [bind_map_left]
    refine (superclassValue_counts s).bind fun parent _ _ _ => ?_
    refine (define_counts _ (v := .nil) trivial).bind fun _ _ _ _ => ?_
    refine .get fun m _ _ => ?_
    have hsuper : ∀ b ∈ [("super", Value.class parent)], b.2.Below m.objects.size :=
      List.forall_mem_singleton.2 trivial
    exact (openScope_counts m.chain hsuper).bind fun chain _ _ _ => hmake _ chain parent.lineage

theorem superMethod_counts (id : RefId) (keyword method : Token) :
    Counts n (superMethod id keyword method) fun n' v => v.Below n' := by
  refine .get fun m hm _ => ?_
  cases m.distances.get? id with
  | none => exact raise_counts _ _
  | some distance =>
    refine (orUndefined_counts (P := fun _ _ => True) keyword fun _ _ _ _ => trivial).bind
      fun parent n₁ hn₁ _ => ?_
    cases distance with
    | zero => exact .throw _
    | succ inner =>
      have hobject : ∀ v, m.store.getAt? m.chain inner "this" = some v →
          ∀ n', n₁ ≤ n' → v.Below n' := by
        intro v hv n' hn'
        obtain ⟨frame, hv⟩ := Store.lookup?_of_getAt? hv
        exact (hm.values _ _ _ hv).mono (Nat.le_trans hn₁ hn')
      refine (orUndefined_counts (P := fun n' v => v.Below n') _ hobject).bind
        fun object _ _ hobject => ?_
      split
      · cases Class.method? _ method.lexeme with
        | none => exact raise_counts _ _
        | some found =>
          refine (bindMethod_counts _ hobject).bind fun _ _ _ _ => ?_
          exact .pure fun _ _ => trivial
      · exact raise_counts _ _

/-! ## Expressions and statements -/

section

variable {ev : Expr → Eval Value} {run : Stmt → Eval Flow}
  (hev : ∀ e n, Counts n (ev e) fun n' v => v.Below n')
  (hrun : ∀ s n, Counts n (run s) fun n' flow => flow.Below n')

include hev hrun

theorem evaluateRound_counts (e : Expr) (n : Nat) :
    Counts n (evaluateRound ev run e) fun n' v => v.Below n' := by
  cases e with
  | literal value => exact .value value.simple_toValue.below
  | grouping inner => exact hev inner n
  | unary operator right =>
    refine (hev right n).bind fun a n₁ _ _ => ?_
    exact (aside_applyUnary operator a).counts.mono fun _ _ hv => hv.below
  | binary left operator right =>
    refine (hev left n).bind fun a n₁ _ _ => ?_
    refine (hev right n₁).bind fun b n₂ _ _ => ?_
    exact (aside_applyBinary operator a b).counts.mono fun _ _ hv => hv.below
  | logical left operator right =>
    refine (hev left n).bind fun a n₁ _ ha => ?_
    cases shortCircuits operator a with
    | true => exact .value ha
    | false => exact hev right n₁
  | var id name => exact lookUp_counts id name
  | assign id name value =>
    refine (hev value n).bind fun v n₁ _ hv => ?_
    refine (assign_counts id name hv).bind fun _ n₂ hn _ => ?_
    exact .value (hv.mono hn)
  | call callee paren arguments =>
    refine (hev callee n).bind fun f n₁ _ _ => ?_
    refine (Counts.mapM hev arguments n₁).bind fun vs n₂ _ hvs => ?_
    exact applyCall_counts hrun paren f hvs
  | get object name =>
    refine (hev object n).bind fun v n₁ _ hv => ?_
    cases v with
    | object identity c => exact getProperty_counts hv name
    | _ => exact raise_counts _ _
  | set object name value =>
    refine (hev object n).bind fun target n₁ _ _ => ?_
    cases target with
    | object identity c =>
      refine (hev value n₁).bind fun v n₂ _ hv => ?_
      refine (setField_counts identity name.lexeme hv).bind fun _ n₃ hn _ => ?_
      exact .value (hv.mono hn)
    | _ => exact raise_counts _ _
  | thisRef id keyword => exact lookUp_counts id keyword
  | superRef id keyword method => exact superMethod_counts id keyword method

theorem executeRound_counts (s : Stmt) (n : Nat) :
    Counts n (executeRound ev run s) fun n' flow => flow.Below n' := by
  have hnormal : ∀ n, Counts n (pure Flow.normal) fun n' flow => flow.Below n' :=
    fun _ => .pure fun _ _ => trivial
  cases s with
  | expression value =>
    refine (hev value n).bind fun v n₁ _ _ => ?_
    exact hnormal n₁
  | print value =>
    refine (hev value n).bind fun v n₁ _ _ => ?_
    refine (aside_printLine v.text).counts.bind fun _ n₂ _ _ => ?_
    exact hnormal n₂
  | var name initializer =>
    cases initializer with
    | none =>
      refine (define_counts _ (v := .nil) trivial).bind fun _ n₁ _ _ => ?_
      exact hnormal n₁
    | some initializer =>
      refine (hev initializer n).bind fun v n₁ _ hv => ?_
      refine (define_counts _ hv).bind fun _ n₂ _ _ => ?_
      exact hnormal n₂
  | block body =>
    refine .get fun m _ _ => ?_
    refine (openScope_counts m.chain (List.forall_mem_nil _)).bind fun chain n₁ _ _ => ?_
    exact (runAll_counts hrun body n₁).within chain
  | ifElse condition thenBranch elseBranch =>
    refine (hev condition n).bind fun v n₁ _ _ => ?_
    cases v.isTruthy with
    | true => exact hrun thenBranch n₁
    | false =>
      cases elseBranch with
      | none => exact hnormal n₁
      | some elseBranch => exact hrun elseBranch n₁
  | loop condition body =>
    refine (hev condition n).bind fun v n₁ _ _ => ?_
    cases v.isTruthy with
    | true =>
      refine (hrun body n₁).bind fun flow n₂ _ hflow => ?_
      cases flow with
      | normal => exact hrun (.loop condition body) n₂
      | returned v => exact .pure fun _ => hflow.mono
      | broken => exact hnormal n₂
    | false => exact hnormal n₁
  | function definition =>
    refine (close_counts definition).bind fun v n₁ _ hv => ?_
    refine (define_counts _ hv).bind fun _ n₂ _ _ => ?_
    exact hnormal n₂
  | ret keyword value =>
    cases value with
    | none => exact .pure fun _ _ => trivial
    | some value =>
      refine (hev value n).bind fun v n₁ _ hv => ?_
      exact .pure fun _ => hv.mono
  | brk keyword => exact .pure fun _ _ => trivial
  | classDef name superclass methods =>
    refine (declareClass_counts name superclass methods).bind fun _ n₁ _ _ => ?_
    exact hnormal n₁

end

theorem evaluate_execute_counts (fuel : Nat) :
    (∀ e n, Counts n (evaluate fuel e) fun n' v => v.Below n') ∧
      ∀ s n, Counts n (execute fuel s) fun n' flow => flow.Below n' :=
  evaluate_execute_induction (P := fun _ x => ∀ n, Counts n x fun n' v => v.Below n')
    (Q := fun _ x => ∀ n, Counts n x fun n' flow => flow.Below n')
    ⟨fun _ _ => .throw _, fun _ _ => .throw _⟩
    (fun _ _ hev hrun => ⟨evaluateRound_counts hev hrun, executeRound_counts hev hrun⟩) fuel

/-- The value of an expression is an object that has been made, if it is one. -/
theorem evaluate_counts (fuel : Nat) (e : Expr) (n : Nat) :
    Counts n (evaluate fuel e) fun n' v => v.Below n' :=
  (evaluate_execute_counts fuel).1 e n

theorem execute_counts (fuel : Nat) (s : Stmt) (n : Nat) :
    Counts n (execute fuel s) fun n' flow => flow.Below n' :=
  (evaluate_execute_counts fuel).2 s n

theorem runProgram_counts (fuel : Nat) (program : List Stmt) :
    Counts 0 (runProgram fuel program) fun _ _ => True := by
  refine (runAll_counts (execute_counts fuel) program 0).bind fun flow n₁ _ _ => ?_
  cases flow with
  | normal => exact aside_flush.counts.mono fun _ _ _ => trivial
  | _ => exact .throw _

/-! ## Parts of runs -/

/-- The values with which something is called. -/
def Task.arguments : Task → List Value
  | .call _ _ vs | .construct _ _ vs => vs
  | _ => []

/-- All objects have been made at a point, those in arguments too. -/
structure Point.Counted (p : Point) : Prop where
  machine : p.2.Counted
  arguments : ∀ v ∈ p.1.arguments, v.Below p.2.objects.size

theorem Point.Part.counted {p q : Point} (hpart : p.Part q) (hp : p.Counted) : q.Counted := by
  have hstep : ∀ {α : Type} {x : Eval α} {P : Nat → α → Prop} {a : α} {m m' : Machine},
      Counts 0 x P → x m = .ok a m' → m.Counted → m'.Counted :=
    fun hx h hm => (hx.of_ok h hm (Nat.zero_le _)).1
  obtain ⟨hm, hvs⟩ := hp
  have hnone : ∀ {n : Nat}, ∀ v ∈ ([] : List Value), v.Below n := List.forall_mem_nil _
  cases hpart with
  | right h | value h | arguments h | otherArguments h | print h | thenBranch h | elseBranch h
  | loopBody h | second h =>
    exact ⟨hstep (evaluate_counts _ _ 0) h hm, hnone⟩
  | loopAgain h _ hbody =>
    exact ⟨hstep (execute_counts _ _ 0) hbody (hstep (evaluate_counts _ _ 0) h hm), hnone⟩
  | otherStatements h => exact ⟨hstep (execute_counts _ _ 0) h hm, hnone⟩
  | call h hmap | construct h hmap =>
    have hcallee := hstep (evaluate_counts _ _ 0) h hm
    obtain ⟨hm', -, hvs⟩ :=
      (Counts.mapM (evaluate_counts _) _ 0).of_ok hmap hcallee (Nat.zero_le _)
    exact ⟨hm', hvs⟩
  | body h =>
    have hopened := (openScope_counts _ fun b hb => hvs _ (List.of_mem_zip hb).2).of_ok h hm
      (Nat.le_refl _)
    exact ⟨hopened.1.of_eq rfl rfl, hnone⟩
  | block h =>
    have hopened := hstep (openScope_counts _ (List.forall_mem_nil _)) h hm
    exact ⟨hopened.of_eq rfl rfl, hnone⟩
  | initializer hobject _ hf =>
    obtain ⟨hm₁, hle₁, hv⟩ := (newObject_counts _).of_ok hobject hm (Nat.le_refl _)
    obtain ⟨hm₂, hle₂, -⟩ := (bindMethod_counts _ hv).of_ok hf hm₁ (Nat.le_refl _)
    exact ⟨hm₂, fun v hmem => (hvs v hmem).mono (Nat.le_trans hle₁ hle₂)⟩
  | _ => exact ⟨hm, hnone⟩

theorem Point.Contains.counted {p q : Point} (h : p.Contains q) (hp : p.Counted) : q.Counted :=
  h.keeps (P := Point.Counted) (fun _ _ => Part.counted) hp

end Lox
