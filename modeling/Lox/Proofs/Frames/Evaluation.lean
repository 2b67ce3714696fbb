import Lox.Proofs.Frames.Ledger

set_option autoImplicit false

/-! # Runs retain what was bound

A step is given a machine that follows a ledger. However it ends, the machine follows a ledger in
which at most more is settled, and it has retained what was there (`Eval.Retains`). Expressions give
no frame that was there a name (`evaluate_retains`), statements at most the innermost one, in which
they declare (`execute_retains`). What is run in a scope of its own gives names to frames only that
it has opened itself (`Retains.inScope`), so blocks and calls give none to others. -/

namespace Lox

open Eval

variable {α β : Type} {L L' : Ledger} {declares : Bool}

/-! ## Steps -/

/-- A step that leads from a machine that follows a ledger to one that follows it with some more,
    and retains what was there. Its result is as `P` says of what is settled then. -/
def Eval.Retains (declares : Bool) (L : Ledger) (x : Eval α) (P : Ledger → α → Prop) : Prop :=
  ∀ m : Machine, m.Follows L → ∃ L', L.Le L' ∧ (endOf (x m)).Follows L' ∧
    m.Retains declares (endOf (x m)) ∧ ∀ a m', x m = .ok a m' → P L' a

namespace Eval.Retains

variable {x : Eval α} {P : Ledger → α → Prop}

theorem pure {a : α} (h : P L a) : Retains declares L (Pure.pure a) P := fun m hm =>
  ⟨L, .refl L, hm, .refl m, fun _ _ hrun => by cases hrun; exact h⟩

theorem throw (stop : Stop) : Retains declares L (MonadExcept.throw stop : Eval α) P :=
  fun m hm => ⟨L, .refl L, hm, .refl m, nofun⟩

theorem bind {k : α → Eval β} {Q : Ledger → β → Prop} (hx : Retains declares L x P)
    (hk : ∀ a L', L.Le L' → P L' a → Retains declares L' (k a) Q) :
    Retains declares L (x >>= k) Q := by
  intro m hm
  obtain ⟨L₁, hle, hm₁, hkeep, hP⟩ := hx m hm
  simp only [Bind.bind, EStateM.bind]
  cases hrun : x m with
  | error stop m' =>
    rw [hrun] at hm₁ hkeep
    exact ⟨L₁, hle, hm₁, hkeep, nofun⟩
  | ok a m' =>
    rw [hrun] at hm₁ hkeep
    obtain ⟨L₂, hle', hm₂, hkeep', hQ⟩ := hk a L₁ hle (hP a m' hrun) m' hm₁
    exact ⟨L₂, hle.trans hle', hm₂, hkeep.trans hkeep', hQ⟩

theorem mono {P' : Ledger → α → Prop} (hx : Retains false L x P)
    (h : ∀ L' a, P L' a → P' L' a) : Retains declares L x P' := by
  intro m hm
  obtain ⟨L', hle, hm', hkeep, hP⟩ := hx m hm
  exact ⟨L', hle, hm', hkeep.mono, fun a m' hrun => h L' a (hP a m' hrun)⟩

/-- A step that gives no frame a name may be taken for one that does. -/
theorem weaken (hx : Retains false L x P) : Retains declares L x P := hx.mono fun _ _ h => h

/-- A step that looks at the machine first. -/
theorem get {k : Machine → Eval α} (h : ∀ m : Machine, m.Follows L → Retains declares L (k m) P) :
    Retains declares L (MonadState.get >>= k) P :=
  fun m hm => h m hm m hm

theorem mapM {f : β → Eval Value} (h : ∀ L b, Retains declares L (f b) Value.Follows) (L : Ledger)
    (bs : List β) : Retains declares L (bs.mapM f) fun L' vs => ∀ v ∈ vs, v.Follows L' := by
  induction bs generalizing L with
  | nil =>
    rw [List.mapM_nil]
    exact .pure (List.forall_mem_nil _)
  | cons b bs ih =>
    rw [List.mapM_cons]
    refine (h L b).bind fun v L₁ _ hv => ?_
    refine (ih L₁).bind fun vs L₂ hle hvs => ?_
    exact .pure (List.forall_mem_cons.2 ⟨hv.mono hle, hvs⟩)

end Eval.Retains

/-- A step that changes output and clock at most. -/
theorem Aside.retains {y : Eval α} {P : α → Prop} (h : Aside y P) :
    Retains declares L y fun _ a => P a := by
  intro m hm
  obtain ⟨output, clock, h⟩ := h m
  cases hrun : y m with
  | ok a m' =>
    rw [hrun] at h
    obtain ⟨rfl, ha⟩ := h
    refine ⟨L, .refl L, hm.of_eq rfl rfl hm.chain, .of_eq rfl rfl rfl, fun _ _ heq => ?_⟩
    cases heq
    exact ha
  | error stop m' =>
    rw [hrun] at h
    obtain ⟨rfl, -⟩ := h
    exact ⟨L, .refl L, hm.of_eq rfl rfl hm.chain, .of_eq rfl rfl rfl, nofun⟩

namespace Eval

variable {P : Ledger → α → Prop}

theorem raise_retains (token : Token) (problem : RuntimeProblem) :
    Retains declares L (raise token problem : Eval α) P := .throw _

theorem orUndefined_retains (name : Token) {o : Option α} (h : ∀ a, o = some a → P L a) :
    Retains declares L (orUndefined name o) P := by
  cases o with
  | none => exact raise_retains _ _
  | some a => exact .pure (h a rfl)

/-! ## Variables -/

/-- A name is bound in a frame that has it already, or in one that may get it. -/
theorem bindIn_retains (name : String) {m : Machine} (hm : m.Follows L) {frame : FrameId}
    {v : Value} (hv : v.Follows L) (hframe : (m.store.lookup? frame name).isSome ∨
      declares = true ∧ m.chain.head? = some frame) :
    let m' : Machine := { m with store := m.store.bindIn frame name v }
    m'.Follows L ∧ m.Retains declares m' := by
  have hsize : (m.store.bindIn frame name v).frames.size = m.store.frames.size :=
    Store.size_bindIn ..
  refine ⟨⟨hm.proper, hsize.trans hm.frames, hm.objects, hm.chain, fun other key w hw => ?_,
    hm.fields⟩, ⟨rfl, Nat.le_of_eq hsize.symm, Nat.le_refl _, fun other key hb => ?_,
    fun other hother hne key hb => ?_, fun _ _ h => h⟩⟩
  · rcases Store.lookup?_of_bindIn _ _ hw with ⟨-, -, rfl⟩ | hw
    · exact hv
    · exact hm.values other key w hw
  · obtain ⟨w, hw⟩ := Option.isSome_iff_exists.1 hb
    exact (Store.lookup?_bindIn_of_some m.store frame v hw).1
  -- only a frame that may get names can have got one
  · obtain ⟨w, hw⟩ := Option.isSome_iff_exists.1 hb
    rcases Store.lookup?_of_bindIn _ _ hw with ⟨rfl, rfl, -⟩ | hw
    · exact hframe.resolve_right fun h => hne h.1 h.2
    · exact hw ▸ rfl

theorem define_retains (name : String) {v : Value} (hv : v.Follows L) :
    Retains true L (define name v) fun _ _ => True := by
  intro m hm
  obtain ⟨frame, outer, hchain, -⟩ := hm.chain.head
  have hrun : define name v m = .ok () { m with store := m.store.bindIn frame name v } := by
    show EStateM.Result.ok () { m with store := m.store.define m.chain name v } = _
    rw [hchain]
    rfl
  have hhead : m.chain.head? = some frame := by
    rw [hchain]
    rfl
  obtain ⟨hm', hkeep⟩ := bindIn_retains name hm hv (.inr ⟨rfl, hhead⟩)
  rw [hrun]
  exact ⟨L, .refl L, hm', hkeep, fun _ _ _ => trivial⟩

/-- A value that is found is one that the machine holds. -/
theorem lookUp_retains (id : RefId) (name : Token) :
    Retains declares L (lookUp id name) Value.Follows := by
  refine .get fun m hm => orUndefined_retains name fun v hv => ?_
  have hfound : ∃ frame, m.store.lookup? frame name.lexeme = some v := by
    split at hv
    · exact Store.lookup?_of_getAt? hv
    · exact Store.lookup?_of_get? hv
  obtain ⟨frame, hv⟩ := hfound
  exact hm.values _ _ _ hv

/-- An assignment binds a name where a search has found it. -/
theorem bindFound_retains {find : Machine → Option FrameId} {name : Token} {v : Value}
    (hfind : ∀ m frame, find m = some frame → (m.store.lookup? frame name.lexeme).isSome)
    (hv : v.Follows L) :
    Retains declares L (do
      let m ← MonadState.get
      let frame ← orUndefined name (find m)
      bindIn frame name.lexeme v) fun _ _ => True := by
  intro m hm
  rw [get_bind]
  cases hframe : find m with
  | none => exact ⟨L, .refl L, hm, .refl m, fun _ _ _ => trivial⟩
  | some frame =>
    obtain ⟨hm', hkeep⟩ := bindIn_retains name.lexeme hm hv (.inl (hfind m frame hframe))
    exact ⟨L, .refl L, hm', hkeep, fun _ _ _ => trivial⟩

theorem isSome_of_home? {store : Store Value} {chain : Chain} {name : String} {frame : FrameId}
    (h : store.home? chain name = some frame) : (store.lookup? frame name).isSome :=
  List.find?_some (p := fun frame => (store.lookup? frame name).isSome) h

theorem isSome_of_homeAt? {store : Store Value} {chain : Chain} {distance : Nat} {name : String}
    {frame : FrameId} (h : store.homeAt? chain distance name = some frame) :
    (store.lookup? frame name).isSome :=
  (Option.filter_eq_some_iff.1 h).2

theorem assign_retains (id : RefId) (name : Token) {v : Value} (hv : v.Follows L) :
    Retains declares L (assign id name v) fun _ _ => True := by
  refine bindFound_retains (fun m frame h => ?_) hv
  split at h
  · exact isSome_of_homeAt? h
  · exact isSome_of_home? h

theorem assignInnermost_retains (name : Token) {v : Value} (hv : v.Follows L) :
    Retains declares L (assignInnermost name v) fun _ _ => True :=
  bindFound_retains (fun _ _ => isSome_of_home?) hv

/-! ## Scopes -/

/-- The machine in which a new frame binds some names. -/
def opening (m : Machine) (bindings : List (String × Value)) : Machine :=
  { m with store := (m.store.openIn []).2.bindAll m.store.frames.size bindings }

theorem opening_retains (declares : Bool) {m : Machine} (hm : m.Follows L) {outer : Chain}
    (houter : L.Lists outer) {bindings : List (String × Value)}
    (hb : ∀ b ∈ bindings, b.2.Follows L) :
    (opening m bindings).Follows (L.opened outer) ∧ m.Retains declares (opening m bindings) := by
  have hsize : (opening m bindings).store.frames.size = m.store.frames.size + 1 := by
    simp [opening, Store.size_bindAll, Store.openIn]
  refine ⟨⟨hm.proper.opened houter, ?_, hm.objects, hm.chain.mono (L.le_opened outer),
    fun frame name v hv => ?_, fun identity name v hv => ?_⟩, ⟨rfl, ?_, Nat.le_refl _,
    fun frame name hbound => ?_, fun frame hframe _ name hbound => ?_, fun _ _ h => h⟩⟩
  · rw [hsize, hm.frames]
    exact (Array.size_push ..).symm
  -- a value that is found is one of the bindings or was there before
  · rcases Store.lookup?_of_bindAll hv with ⟨-, hmem⟩ | hv
    · exact (hb _ hmem).mono (L.le_opened outer)
    · rw [Store.lookup?_openIn] at hv
      exact (hm.values frame name v hv).mono (L.le_opened outer)
  · exact (hm.fields identity name v hv).mono (L.le_opened outer)
  · exact hsize ▸ Nat.le_succ _
  · obtain ⟨v, hv⟩ := Option.isSome_iff_exists.1 hbound
    have hframe : frame < m.store.frames.size := Moment.lt_size_of_lookup? (μ := ⟨[], m⟩) hbound
    refine Option.isSome_iff_exists.2 ⟨v, Store.lookup?_bindAll_of_ne ?_ (Nat.ne_of_lt hframe)⟩
    rw [Store.lookup?_openIn]
    exact hv
  · obtain ⟨v, hv⟩ := Option.isSome_iff_exists.1 hbound
    rcases Store.lookup?_of_bindAll hv with ⟨rfl, -⟩ | hv
    · exact absurd hframe (Nat.lt_irrefl _)
    · rw [Store.lookup?_openIn] at hv
      exact hv ▸ rfl

theorem openScope_retains {outer : Chain} (houter : L.Lists outer)
    {bindings : List (String × Value)} (hb : ∀ b ∈ bindings, b.2.Follows L) :
    Retains declares L (openScope outer bindings) Ledger.Lists := by
  intro m hm
  obtain ⟨hm', hkeep⟩ := opening_retains declares hm houter hb
  refine ⟨_, L.le_opened outer, hm', hkeep, fun chain m' hrun => ?_⟩
  cases hrun
  exact hm.frames ▸ Ledger.lists_opened houter

/-- A step in a scope of its own. -/
def inScope (outer : Chain) (bindings : List (String × Value)) (x : Eval α) : Eval α := do
  let chain ← openScope outer bindings
  within chain x

/-- A step ends in a scope as it ends there, and then leaves it. -/
theorem within_cases (chain : Chain) (x : Eval α) (m : Machine) :
    endOf (within chain x m) = { endOf (x { m with chain }) with chain := m.chain } ∧
      ∀ a m', within chain x m = .ok a m' → ∃ m'', x { m with chain } = .ok a m'' := by
  unfold within
  cases x { m with chain } with
  | error stop m' => exact ⟨rfl, nofun⟩
  | ok a m' => exact ⟨rfl, fun _ _ h => by cases h; exact ⟨m', rfl⟩⟩

/-- What a step declares in a scope of its own is bound in a frame that was not there before. -/
theorem Retains.inScope {x : Eval α} {outer : Chain} (houter : L.Lists outer)
    {bindings : List (String × Value)} (hb : ∀ b ∈ bindings, b.2.Follows L)
    (hx : ∀ L', L.Le L' → Retains true L' x P) :
    Retains declares L (inScope outer bindings x) P := by
  intro m hm
  obtain ⟨hm₁, hkeep₁⟩ := opening_retains declares hm houter hb
  let inner : Chain := m.store.frames.size :: outer
  have hinner : (L.opened outer).Lists inner := by
    have h := Ledger.lists_opened houter
    rwa [← hm.frames] at h
  obtain ⟨L', hle, hm₂, hkeep₂, hP⟩ :=
    hx _ (L.le_opened outer) { opening m bindings with chain := inner } (hm₁.of_eq rfl rfl hinner)
  obtain ⟨hend, hok⟩ := within_cases inner x (opening m bindings)
  have hrun : Eval.inScope outer bindings x m = within inner x (opening m bindings) := rfl
  rw [hrun, hend]
  refine ⟨L', (L.le_opened outer).trans hle, hm₂.of_eq rfl rfl ?_, ⟨rfl, ?_, ?_, ?_, ?_, ?_⟩,
    fun a m' h => ?_⟩
  · exact hm.chain.mono ((L.le_opened outer).trans hle)
  · exact Nat.le_trans hkeep₁.frames hkeep₂.frames
  · exact Nat.le_trans hkeep₁.objects hkeep₂.objects
  · exact fun frame name h => hkeep₂.bound frame name (hkeep₁.bound frame name h)
  · intro frame hframe hne name h
    -- the step may declare something in the innermost frame only, and this one is new
    refine hkeep₁.names frame hframe hne name ?_
    refine hkeep₂.names frame (Nat.lt_of_lt_of_le hframe hkeep₁.frames) (fun _ => ?_) name h
    exact fun heq => Nat.ne_of_gt hframe (Option.some.inj heq)
  · exact fun identity name h => hkeep₂.fields identity name (hkeep₁.fields identity name h)
  · obtain ⟨m'', h⟩ := hok a m' h
    exact hP a m'' h

/-! ## Functions, classes and objects -/

theorem freshIdentity_retains : Retains declares L freshIdentity fun _ _ => True :=
  fun _ hm => ⟨L, .refl L, hm.of_eq rfl rfl hm.chain, .of_eq rfl rfl rfl, fun _ _ _ => trivial⟩

theorem close_retains (definition : FunctionDef) :
    Retains declares L (close definition) Value.Follows :=
  freshIdentity_retains.bind fun _ _ _ _ => .get fun _ hm => .pure hm.chain

theorem bindMethod_retains {method : Method} (hmethod : L.Lists method.chain) {object : Value}
    (hobject : object.Follows L) :
    Retains declares L (bindMethod method object) fun L' f => L'.Lists f.chain := by
  refine (openScope_retains hmethod (List.forall_mem_singleton.2 hobject)).bind
    fun _ _ _ hchain => ?_
  refine freshIdentity_retains.bind fun _ _ hle _ => ?_
  exact .pure (hchain.mono hle)

/-- The class of a new object is settled. -/
theorem newObject_retains {c : Class} (hc : c.Follows L) :
    Retains declares L (newObject c) Value.Follows := by
  intro m hm
  have hsize : (m.objects.push []).size = m.objects.size + 1 := Array.size_push _
  -- the new object has no fields, so no field is found that was not found before
  have hfield : ∀ identity name, fieldOf? (m.objects.push []) identity name =
      fieldOf? m.objects identity name := by
    intro identity name
    unfold fieldOf?
    rw [Array.getElem?_push]
    split
    · next heq => simp [heq, Bindings.find?]
    · rfl
  refine ⟨L.made c, L.le_made c, ⟨⟨hm.proper.global, hm.proper.only, hm.proper.inside⟩, hm.frames,
    ?_, hm.chain.mono (L.le_made c), fun frame name v hv => ?_, fun identity name v hv => ?_⟩,
    ⟨rfl, Nat.le_refl _, ?_, fun _ _ h => h, fun _ _ _ _ h => h, fun identity name h => ?_⟩,
    fun v m' hrun => ?_⟩
  · show (m.objects.push []).size = (L.classes.push c).size
    rw [hsize, hm.objects, Array.size_push]
  · exact (hm.values frame name v hv).mono (L.le_made c)
  · exact (hm.fields identity name v ((hfield identity name).symm.trans hv)).mono (L.le_made c)
  · exact hsize ▸ Nat.le_succ _
  · exact (congrArg Option.isSome (hfield identity name)).trans h
  · cases hrun
    refine ⟨?_, hc.mono (L.le_made c)⟩
    simp [hm.objects, Ledger.made]

theorem getProperty_retains {identity : Nat} {c : Class}
    (hobject : (Value.object identity c).Follows L) (name : Token) :
    Retains declares L (getProperty identity c name) Value.Follows := by
  refine .get fun m hm => ?_
  cases hfield : m.objects[identity]?.bind (·.find? name.lexeme) with
  | some v => exact .pure (hm.fields identity name.lexeme v hfield)
  | none =>
    cases hmethod : c.method? name.lexeme with
    | none => exact raise_retains _ _
    | some method =>
      exact (bindMethod_retains (hobject.2.method hmethod) hobject).bind fun _ _ _ hf => .pure hf

/-- A field is added or changed, none is removed. -/
theorem setField_retains (identity : Nat) (name : String) {v : Value} (hv : v.Follows L) :
    Retains declares L (setField identity name v) fun _ _ => True := by
  intro m hm
  have hsize : (m.objects.modify identity (·.bind name v)).size = m.objects.size :=
    Array.size_modify
  refine ⟨L, .refl L, ⟨hm.proper, hm.frames, hsize.trans hm.objects, hm.chain, hm.values,
    fun other key w hw => ?_⟩, ⟨rfl, Nat.le_refl _, Nat.le_of_eq hsize.symm, fun _ _ h => h,
    fun _ _ _ _ h => h, fun other key h => ?_⟩, fun _ _ _ => trivial⟩
  · have hw : fieldOf? (m.objects.modify identity (·.bind name v)) other key = some w := hw
    rw [fieldOf?_modify] at hw
    split at hw
    · cases hw
      exact hv
    · exact hm.fields other key w hw
  · show (fieldOf? (m.objects.modify identity (·.bind name v)) other key).isSome
    rw [fieldOf?_modify]
    split
    · rfl
    · exact h

end Eval

/-! ## Calls and classes -/

/-- A value that is returned holds chains and objects as is settled. -/
def Flow.Follows (L : Ledger) : Flow → Prop
  | .returned v => v.Follows L
  | _ => True

theorem callFunction_eq_inScope (run : Stmt → Eval Flow) (f : Closure) (vs : List Value) :
    callFunction run f vs =
      inScope f.chain ((f.definition.params.map (·.lexeme)).zip vs)
        (runAll run f.definition.body) >>= result f := by
  simp only [callFunction, inScope, bind_assoc]

section

variable {run : Stmt → Eval Flow} (hrun : ∀ L s, Retains true L (run s) Flow.Follows)

include hrun

theorem runAll_retains (L : Ledger) (ss : List Stmt) :
    Retains true L (runAll run ss) Flow.Follows := by
  induction ss generalizing L with
  | nil => exact .pure trivial
  | cons s ss ih =>
    refine (hrun L s).bind fun flow L₁ _ hflow => ?_
    cases flow with
    | normal => exact ih L₁
    | returned v => exact .pure hflow
    | broken => exact .pure trivial

omit hrun in
theorem result_retains (f : Closure) {flow : Flow} (hflow : flow.Follows L) :
    Retains declares L (result f flow) Value.Follows := by
  unfold result
  split
  -- an initializer gives its receiver, which is found in the scope where it was bound
  · refine .get fun m hm => orUndefined_retains _ fun v hv => ?_
    obtain ⟨frame, hv⟩ := Store.lookup?_of_getAt? hv
    exact hm.values _ _ _ hv
  · cases flow with
    | normal => exact .pure trivial
    | returned v => exact .pure hflow
    | broken => exact .throw _

/-- What a function declares is bound in the scope of the call. -/
theorem callFunction_retains {f : Closure} (hf : L.Lists f.chain) {vs : List Value}
    (hvs : ∀ v ∈ vs, v.Follows L) :
    Retains declares L (callFunction run f vs) Value.Follows := by
  rw [callFunction_eq_inScope]
  refine Retains.bind (P := Flow.Follows) ?_ fun _ _ _ hflow => result_retains f hflow
  exact Retains.inScope hf (fun b hb => hvs _ (List.of_mem_zip hb).2) fun L' _ =>
    runAll_retains hrun L' f.definition.body

theorem construct_retains {c : Class} (hc : c.Follows L) {vs : List Value}
    (hvs : ∀ v ∈ vs, v.Follows L) : Retains declares L (construct run c vs) Value.Follows := by
  refine (newObject_retains hc).bind fun object L₁ hle₁ hobject => ?_
  cases hmethod : c.method? initializerName with
  | none => exact .pure hobject
  | some method =>
    have hchain := (hc.method hmethod).mono hle₁
    refine (bindMethod_retains hchain hobject).bind fun f L₂ hle₂ hf => ?_
    have hcall : Retains declares L₂ (callFunction run f vs) Value.Follows :=
      callFunction_retains hrun hf fun v hv => (hvs v hv).mono (hle₁.trans hle₂)
    exact hcall.bind fun _ L₃ hle₃ _ => .pure (hobject.mono (hle₂.trans hle₃))

theorem applyCall_retains (paren : Token) {callee : Value} (hcallee : callee.Follows L)
    {vs : List Value} (hvs : ∀ v ∈ vs, v.Follows L) :
    Retains declares L (applyCall run paren callee vs) Value.Follows := by
  unfold applyCall
  cases callee.arity? with
  | none => exact raise_retains _ _
  | some arity =>
    dsimp only
    split
    · exact raise_retains _ _
    · cases callee with
      | function f => exact callFunction_retains hrun hcallee hvs
      | «class» c => exact construct_retains hrun hcallee hvs
      | native f =>
        cases f
        exact aside_readClock.retains.mono fun _ _ hv => hv.follows
      | _ => exact raise_retains _ _

end

theorem superclassValue_retains (s : Superclass) :
    Retains declares L (superclassValue s) fun L' c => c.Follows L' := by
  refine (lookUp_retains s.id s.name).bind fun v _ _ hv => ?_
  cases v with
  | «class» c => exact .pure hv
  | _ => exact raise_retains _ _

/-- A class follows the ledger if its ancestors do and its methods are made in a chain that does. -/
theorem Class.follows_of_made {chain : Chain} (hchain : L.Lists chain) (identity : Nat)
    (name : String) (methods : List FunctionDef) {ancestors : List ClassBody}
    (hancestors : ∀ body ∈ ancestors, body.Follows L) :
    Class.Follows L ⟨⟨identity, name, methodsOf chain methods⟩, ancestors⟩ := by
  intro body hbody
  rcases List.mem_cons.1 hbody with rfl | hbody
  · exact fun key method hmethod => (of_find?_methodsOf hmethod).1 ▸ hchain
  · exact hancestors body hbody

theorem declareClass_retains (name : Token) (superclass : Option Superclass)
    (methods : List FunctionDef) :
    Retains true L (declareClass name superclass methods) fun _ _ => True := by
  have hmake : ∀ (L : Ledger) (chain : Chain) (ancestors : List ClassBody), L.Lists chain →
      (∀ body ∈ ancestors, body.Follows L) → Retains true L (do
      let identity ← freshIdentity
      let body : ClassBody := ⟨identity, name.lexeme, methodsOf chain methods⟩
      assignInnermost name (.class ⟨body, ancestors⟩)) fun _ _ => True := by
    intro L chain ancestors hchain hancestors
    refine freshIdentity_retains.bind fun identity L' hle _ => assignInnermost_retains _ ?_
    exact Class.follows_of_made (hchain.mono hle) identity _ methods fun body hbody =>
      (hancestors body hbody).mono hle
  unfold declareClass
  cases superclass with
  | none =>
    exact (define_retains _ (v := .nil) trivial).bind fun _ L' _ _ =>
      .get fun m hm => hmake L' m.chain [] hm.chain (List.forall_mem_nil _)
  | some s =>
    simp only [bind_map_left]
    -- the methods are made in a scope that holds the superclass
    refine (superclassValue_retains s).bind fun parent L₁ _ hparent => ?_
    refine (define_retains _ (v := .nil) trivial).bind fun _ L₂ hle₂ _ => ?_
    refine .get fun m hm => ?_
    have hsuper : Value.Follows L₂ (.class parent) := Class.Follows.mono hparent hle₂
    exact (openScope_retains hm.chain (List.forall_mem_singleton.2 hsuper)).bind
      fun chain L₃ hle₃ hchain => hmake L₃ chain parent.lineage hchain
        (Class.Follows.mono hparent (hle₂.trans hle₃))

theorem superMethod_retains (id : RefId) (keyword method : Token) :
    Retains declares L (superMethod id keyword method) Value.Follows := by
  refine .get fun m hm => ?_
  have hheld : ∀ {d : Nat} {name : String} {v : Value}, m.store.getAt? m.chain d name = some v →
      v.Follows L := fun h => by
    obtain ⟨frame, hv⟩ := Store.lookup?_of_getAt? h
    exact hm.values _ _ _ hv
  cases m.distances.get? id with
  | none => exact raise_retains _ _
  | some distance =>
    have hparent : Retains declares L (orUndefined keyword
        (m.store.getAt? m.chain distance keyword.lexeme)) Value.Follows :=
      orUndefined_retains keyword fun _ => hheld
    refine hparent.bind fun parent L₁ hle₁ hparent => ?_
    cases distance with
    | zero => exact .throw _
    | succ inner =>
      have hobject : Retains declares L₁ (orUndefined (.ofName "this" keyword.line)
          (m.store.getAt? m.chain inner "this")) Value.Follows :=
        orUndefined_retains _ fun _ hv => (hheld hv).mono hle₁
      refine hobject.bind fun object L₂ hle₂ hobject => ?_
      split
      · next c _ _ =>
        have hc : c.Follows L₂ := Class.Follows.mono hparent hle₂
        cases hmethod : c.method? method.lexeme with
        | none => exact raise_retains _ _
        | some found =>
          exact (bindMethod_retains (hc.method hmethod) hobject).bind fun _ _ _ hf => .pure hf
      · exact raise_retains _ _

/-! ## Expressions and statements -/

section

variable {ev : Expr → Eval Value} {run : Stmt → Eval Flow}
  (hev : ∀ L e, Retains false L (ev e) Value.Follows)
  (hrun : ∀ L s, Retains true L (run s) Flow.Follows)

include hev hrun

theorem evaluateRound_retains (L : Ledger) (e : Expr) :
    Retains false L (evaluateRound ev run e) Value.Follows := by
  cases e with
  | literal value => exact .pure value.simple_toValue.follows
  | grouping inner => exact hev L inner
  | unary operator right =>
    refine (hev L right).bind fun a L₁ _ _ => ?_
    exact (aside_applyUnary operator a).retains.mono fun _ _ hv => hv.follows
  | binary left operator right =>
    refine (hev L left).bind fun a L₁ _ _ => ?_
    refine (hev L₁ right).bind fun b L₂ _ _ => ?_
    exact (aside_applyBinary operator a b).retains.mono fun _ _ hv => hv.follows
  | logical left operator right =>
    refine (hev L left).bind fun a L₁ _ ha => ?_
    cases shortCircuits operator a with
    | true => exact .pure ha
    | false => exact hev L₁ right
  | var id name => exact lookUp_retains id name
  | assign id name value =>
    refine (hev L value).bind fun v L₁ _ hv => ?_
    refine (assign_retains id name hv).bind fun _ L₂ hle _ => ?_
    exact .pure (hv.mono hle)
  | call callee paren arguments =>
    refine (hev L callee).bind fun f L₁ _ hf => ?_
    refine (Retains.mapM hev L₁ arguments).bind fun vs L₂ hle hvs => ?_
    exact applyCall_retains hrun paren (hf.mono hle) hvs
  | get object name =>
    refine (hev L object).bind fun value L₁ _ hv => ?_
    cases value with
    | object identity c => exact getProperty_retains hv name
    | _ => exact raise_retains _ _
  | set object name value =>
    refine (hev L object).bind fun target L₁ _ _ => ?_
    cases target with
    | object identity c =>
      refine (hev L₁ value).bind fun v L₂ _ hv => ?_
      refine (setField_retains identity name.lexeme hv).bind fun _ L₃ hle _ => ?_
      exact .pure (hv.mono hle)
    | _ => exact raise_retains _ _
  | thisRef id keyword => exact lookUp_retains id keyword
  | superRef id keyword method => exact superMethod_retains id keyword method

omit hev in
/-- What a block declares is bound in its own scope. -/
theorem block_retains (L : Ledger) (body : List Stmt) :
    Retains declares L (executeRound ev run (.block body)) Flow.Follows := by
  refine .get fun m hm => ?_
  exact Retains.inScope hm.chain (List.forall_mem_nil _) fun L₁ _ => runAll_retains hrun L₁ body

theorem executeRound_retains (L : Ledger) (s : Stmt) :
    Retains true L (executeRound ev run s) Flow.Follows := by
  cases s with
  | expression value => exact (hev L value).weaken.bind fun _ _ _ _ => .pure trivial
  | print value =>
    refine (hev L value).weaken.bind fun v L₁ _ _ => ?_
    exact (aside_printLine v.text).retains.bind fun _ _ _ _ => .pure trivial
  | var name initializer =>
    cases initializer with
    | none => exact (define_retains _ (v := .nil) trivial).bind fun _ _ _ _ => .pure trivial
    | some initializer =>
      refine (hev L initializer).weaken.bind fun v L₁ _ hv => ?_
      exact (define_retains _ hv).bind fun _ _ _ _ => .pure trivial
  | block body => exact block_retains hrun L body
  | ifElse condition thenBranch elseBranch =>
    refine (hev L condition).weaken.bind fun v L₁ _ _ => ?_
    cases v.isTruthy with
    | true => exact hrun L₁ thenBranch
    | false =>
      cases elseBranch with
      | none => exact .pure trivial
      | some elseBranch => exact hrun L₁ elseBranch
  | loop condition body =>
    refine (hev L condition).weaken.bind fun v L₁ _ _ => ?_
    cases v.isTruthy with
    | false => exact .pure trivial
    | true =>
      refine (hrun L₁ body).bind fun flow L₂ _ hflow => ?_
      cases flow with
      | normal => exact hrun L₂ (.loop condition body)
      | returned v => exact .pure hflow
      | broken => exact .pure trivial
  | function definition =>
    refine (close_retains definition).bind fun v L₁ _ hv => ?_
    exact (define_retains _ hv).bind fun _ _ _ _ => .pure trivial
  | ret keyword value =>
    cases value with
    | none => exact .pure trivial
    | some value => exact (hev L value).weaken.bind fun _ _ _ hv => .pure hv
  | brk keyword => exact .pure trivial
  | classDef name superclass methods =>
    exact (declareClass_retains name superclass methods).bind fun _ _ _ _ => .pure trivial

end

theorem evaluate_execute_retain (fuel : Nat) :
    (∀ e L, Retains false L (evaluate fuel e) Value.Follows) ∧
      ∀ s L, Retains true L (execute fuel s) Flow.Follows := by
  refine evaluate_execute_induction (P := fun _ x => ∀ L, Retains false L x Value.Follows)
    (Q := fun _ x => ∀ L, Retains true L x Flow.Follows)
    ⟨fun _ _ => .throw _, fun _ _ => .throw _⟩ (fun ev run hev hrun => ?_) fuel
  have hev : ∀ L e, Retains false L (ev e) Value.Follows := fun L e => hev e L
  have hrun : ∀ L s, Retains true L (run s) Flow.Follows := fun L s => hrun s L
  exact ⟨fun e L => evaluateRound_retains hev hrun L e, fun s L => executeRound_retains hev hrun L s⟩

/-- An expression gives no frame a name. -/
theorem evaluate_retains (fuel : Nat) (L : Ledger) (e : Expr) :
    Retains false L (evaluate fuel e) Value.Follows :=
  (evaluate_execute_retain fuel).1 e L

/-- A statement gives names to the innermost frame at most. -/
theorem execute_retains (fuel : Nat) (L : Ledger) (s : Stmt) :
    Retains true L (execute fuel s) Flow.Follows :=
  (evaluate_execute_retain fuel).2 s L

/-- A block gives no frame a name. -/
theorem execute_block_retains (fuel : Nat) (L : Ledger) (body : List Stmt) :
    Retains false L (execute fuel (.block body)) Flow.Follows := by
  cases fuel with
  | zero => exact .throw _
  | succ fuel =>
    rw [execute_succ]
    exact block_retains (execute_retains fuel) L body

theorem runProgram_retains (fuel : Nat) (L : Ledger) (program : List Stmt) :
    Retains true L (runProgram fuel program) fun _ _ => True := by
  refine (runAll_retains (execute_retains fuel) L program).bind fun flow L₁ _ _ => ?_
  cases flow with
  | normal => exact aside_flush.retains.mono fun _ _ _ => trivial
  | _ => exact .throw _

end Lox
