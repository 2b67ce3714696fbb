import Lox.Proofs.Run.Keeps

set_option autoImplicit false

/-! # Steps that change the machine

For each step that binds a name, opens a scope, or makes a function, a class or an object: what it
leads to is sound if what it puts in place fits. -/

namespace Lox

open Noted

/-! ## Frames -/

namespace Store

variable {α : Type} (store : Store α) (frame : FrameId)

theorem size_bindIn (name : String) (v : α) :
    (store.bindIn frame name v).frames.size = store.frames.size := by
  simp [bindIn]

/-- What can be seen after a name was bound. -/
theorem lookup?_of_bindIn {name : String} {v : α} {other : FrameId} {key : String} {w : α}
    (h : (store.bindIn frame name v).lookup? other key = some w) :
    other = frame ∧ key = name ∧ w = v ∨ store.lookup? other key = some w := by
  by_cases hframe : frame < store.frames.size
  · rw [lookup?_bindIn store frame other name key v hframe] at h
    split at h
    · next heq => exact .inl ⟨heq.1, heq.2, (Option.some.inj h).symm⟩
    · exact .inr h
  · -- there is no such frame
    rw [bindIn, lookup?, Array.getElem?_modify] at h
    split at h
    · next heq => simp [heq ▸ hframe] at h
    · exact .inr h

/-- What was bound stays bound, and keeps its value under another name. -/
theorem lookup?_bindIn_of_some {name : String} (v : α) {other : FrameId} {key : String} {w : α}
    (h : store.lookup? other key = some w) :
    ((store.bindIn frame name v).lookup? other key).isSome ∧
      (key ≠ name → (store.bindIn frame name v).lookup? other key = some w) := by
  by_cases hframe : frame < store.frames.size
  · rw [lookup?_bindIn store frame other name key v hframe]
    split
    · next heq => exact ⟨rfl, fun hne => absurd heq.2 hne⟩
    · exact ⟨h ▸ rfl, fun _ => h⟩
  · have hsame : (store.bindIn frame name v).lookup? other key = store.lookup? other key := by
      rw [bindIn, lookup?, Array.getElem?_modify]
      split
      · next heq => simp [lookup?, heq ▸ hframe]
      · rfl
    rw [hsame]
    exact ⟨h ▸ rfl, fun _ => h⟩

/-- Bind names in one frame, in order. -/
def bindAll (bindings : List (String × α)) : Store α :=
  bindings.foldl (fun store b => store.bindIn frame b.1 b.2) store

variable {store frame}

theorem size_bindAll (bindings : List (String × α)) :
    (store.bindAll frame bindings).frames.size = store.frames.size := by
  induction bindings generalizing store with
  | nil => rfl
  | cons b bs ih => exact ih.trans (size_bindIn store frame b.1 b.2)

theorem lookup?_of_bindAll {bindings : List (String × α)} {other : FrameId} {key : String} {w : α}
    (h : (store.bindAll frame bindings).lookup? other key = some w) :
    other = frame ∧ (key, w) ∈ bindings ∨ store.lookup? other key = some w := by
  induction bindings generalizing store with
  | nil => exact .inr h
  | cons b bs ih =>
    rcases ih h with ⟨heq, hmem⟩ | h
    · exact .inl ⟨heq, List.mem_cons_of_mem _ hmem⟩
    · rcases lookup?_of_bindIn store frame h with ⟨heq, rfl, rfl⟩ | h
      · exact .inl ⟨heq, List.mem_cons_self⟩
      · exact .inr h

theorem lookup?_bindAll_of_ne {bindings : List (String × α)} {other : FrameId} {key : String} {w : α}
    (h : store.lookup? other key = some w) (hne : other ≠ frame) :
    (store.bindAll frame bindings).lookup? other key = some w := by
  induction bindings generalizing store with
  | nil => exact h
  | cons b bs ih =>
    have hsame : (store.bindIn frame b.1 b.2).lookup? other key = some w := by
      rw [bindIn, lookup?, Array.getElem?_modify, if_neg (Ne.symm hne)]
      exact h
    exact ih hsame

theorem isSome_lookup?_bindAll {bindings : List (String × α)} {key : String}
    (h : (store.lookup? frame key).isSome) :
    ((store.bindAll frame bindings).lookup? frame key).isSome := by
  induction bindings generalizing store with
  | nil => exact h
  | cons b bs ih =>
    obtain ⟨w, hw⟩ := Option.isSome_iff_exists.1 h
    exact ih (lookup?_bindIn_of_some store frame b.2 hw).1

theorem isSome_lookup?_bindAll_of_mem {bindings : List (String × α)}
    (hframe : frame < store.frames.size)
    {b : String × α} (hb : b ∈ bindings) :
    ((store.bindAll frame bindings).lookup? frame b.1).isSome := by
  induction bindings generalizing store with
  | nil => exact nomatch hb
  | cons b' bs ih =>
    rcases List.mem_cons.1 hb with rfl | hb
    · have hfirst : ((store.bindIn frame b.1 b.2).lookup? frame b.1).isSome := by
        rw [lookup?_bindIn store frame frame b.1 b.1 b.2 hframe, if_pos ⟨rfl, rfl⟩]
        rfl
      show (((store.bindIn frame b.1 b.2).bindAll frame bs).lookup? frame b.1).isSome
      exact isSome_lookup?_bindAll hfirst
    · exact ih (by rw [size_bindIn]; exact hframe) hb

end Store

variable {K : Site → Prop} {μ μ' : Moment} {α : Type}

/-! ## Variables -/

namespace Moment

/-- A name is bound in a frame. -/
def binding (μ : Moment) (frame : FrameId) (name : String) (v : Value) : Moment :=
  { μ with machine := { μ.machine with store := μ.machine.store.bindIn frame name v } }

theorem leads_binding (μ : Moment) (frame : FrameId) {name : String} (hname : Chosen name)
    (v : Value) : μ.Leads (μ.binding frame name v) where
  log := fun _ h => h
  frames := Nat.le_of_eq (Store.size_bindIn ..).symm
  bound := fun other key h => by
    obtain ⟨w, hw⟩ := Option.isSome_iff_exists.1 h
    exact (Store.lookup?_bindIn_of_some μ.machine.store frame v hw).1
  reserved := fun other key hkey w hw =>
    (Store.lookup?_bindIn_of_some μ.machine.store frame v hw).2 fun heq => hkey (heq ▸ hname)
  chain := rfl
  distances := rfl

theorem Sound.binding (h : μ.Sound K) {frame : FrameId} {name : String} (hname : Chosen name)
    {v : Value} (hv : v.Fits K (μ.binding frame name v)) : (μ.binding frame name v).Sound K := by
  refine h.leads (leads_binding μ frame hname v) (fun other key w hw => ?_)
    (fun _ _ _ h => .inl h) (fun _ h => .inl h) ?_ h.identities
  · rcases Store.lookup?_of_bindIn μ.machine.store frame hw with ⟨-, -, rfl⟩ | hw
    · exact .inr hv
    · exact .inl hw
  · exact h.frames.widen (leads_binding μ frame hname v).frames

theorem lookup?_binding {frame : FrameId} (hframe : frame < μ.machine.store.frames.size)
    (name : String) (v : Value) : ((μ.binding frame name v).lookup? frame name).isSome := by
  rw [lookup?, binding, Store.lookup?_bindIn _ _ _ _ _ _ hframe, if_pos ⟨rfl, rfl⟩]
  rfl

/-- A frame that binds anything exists. -/
theorem lt_size_of_lookup? {frame : FrameId} {name : String} (h : (μ.lookup? frame name).isSome) :
    frame < μ.machine.store.frames.size := by
  rw [lookup?, Store.lookup?] at h
  by_contra hframe
  simp [hframe] at h

end Moment

theorem keeps_bindIn {frame : FrameId} {name : String} (hname : Chosen name) {v : Value}
    (hv : v.Fits K μ) : Keeps K μ (lift (Eval.bindIn frame name v)) fun _ μ' =>
      μ' = μ.binding frame name v :=
  have hl := Moment.leads_binding μ frame hname v
  .of_ok rfl hl (fun h => h.binding hname (hv.leads hl)) fun _ => rfl

/-- Search among the frames of a chain finds something that is there. -/
theorem Store.lookup?_of_get? {store : Store Value} {chain : Chain} {name : String} {v : Value}
    (h : store.get? chain name = some v) : ∃ frame, store.lookup? frame name = some v := by
  obtain ⟨frame, -, hframe⟩ := List.exists_of_findSome?_eq_some h
  exact ⟨frame, hframe⟩

theorem Store.lookup?_of_getAt? {store : Store Value} {chain : Chain} {d : Nat} {name : String}
    {v : Value} (h : store.getAt? chain d name = some v) :
    ∃ frame, store.lookup? frame name = some v := by
  obtain ⟨frame, -, hframe⟩ := Option.bind_eq_some_iff.1 h
  exact ⟨frame, hframe⟩

theorem keeps_assign (id : RefId) {name : Token} (hname : Chosen name.lexeme) {v : Value}
    (hv : v.Fits K μ) : Keeps K μ (lift (Eval.assign id name v)) fun _ _ => True := by
  unfold Eval.assign
  simp only [lift_bind]
  exact .lift_get <| (keeps_orUndefined_chosen hname _).bind fun frame μ' hl _ _ =>
    (keeps_bindIn hname (hv.leads hl)).mono fun _ _ _ _ _ => trivial

theorem keeps_assignInnermost {name : Token} (hname : Chosen name.lexeme) {v : Value}
    (hv : v.Fits K μ) : Keeps K μ (lift (Eval.assignInnermost name v)) fun _ _ => True := by
  unfold Eval.assignInnermost
  simp only [lift_bind]
  exact .lift_get <| (keeps_orUndefined_chosen hname _).bind fun frame μ' hl _ _ =>
    (keeps_bindIn hname (hv.leads hl)).mono fun _ _ _ _ _ => trivial

/-! ## Scopes -/

namespace Moment

/-- A frame is opened for a scope and binds some names. -/
def opening (μ : Moment) (scope : Scope) (bindings : List (String × Value)) : Moment where
  log := μ.log ++ [.opened scope μ.machine.store.frames.size]
  machine := { μ.machine with
    store := (μ.machine.store.openIn []).2.bindAll μ.machine.store.frames.size bindings }

theorem leads_opening (μ : Moment) (scope : Scope) (bindings : List (String × Value)) :
    μ.Leads (μ.opening scope bindings) := by
  have hkept : ∀ frame name v, μ.lookup? frame name = some v →
      (μ.opening scope bindings).lookup? frame name = some v := by
    intro frame name v hv
    have hframe : frame < μ.machine.store.frames.size :=
      lt_size_of_lookup? (Option.isSome_iff_exists.2 ⟨v, hv⟩)
    refine Store.lookup?_bindAll_of_ne ?_ (Nat.ne_of_lt hframe)
    rw [Store.lookup?_openIn]
    exact hv
  refine ⟨⟨fun e he => List.mem_append_left _ he, ?_, fun frame name h => ?_,
    fun frame name _ => hkept frame name⟩, rfl, rfl⟩
  · show _ ≤ (Store.bindAll _ _ _).frames.size
    rw [Store.size_bindAll]
    simp [Store.openIn]
  · obtain ⟨v, hv⟩ := Option.isSome_iff_exists.1 h
    rw [hkept frame name v hv]
    rfl

theorem Sound.opening (h : μ.Sound K) {scope : Scope} {bindings : List (String × Value)}
    (hb : ∀ b ∈ bindings, b.2.Fits K μ) : (μ.opening scope bindings).Sound K := by
  have hl := leads_opening μ scope bindings
  have hsize : (μ.opening scope bindings).machine.store.frames.size =
      μ.machine.store.frames.size + 1 := by
    show (Store.bindAll _ _ _).frames.size = _
    rw [Store.size_bindAll]
    simp [Store.openIn]
  refine h.leads hl (fun frame name v hv => ?_) (fun _ _ _ h => .inl h) (fun e he => ?_) ?_ ?_
  · rcases Store.lookup?_of_bindAll hv with ⟨-, hmem⟩ | hv
    · exact .inr ((hb _ hmem).leads hl)
    · rw [Store.lookup?_openIn] at hv
      exact .inl hv
  · rcases List.mem_append.1 he with he | he
    · exact .inl he
    · rw [List.mem_singleton.1 he]
      exact .inr trivial
  · rw [hsize]
    exact h.frames.snoc rfl
  · exact h.identities.snoc_none rfl

theorem lookup?_opening (μ : Moment) (scope : Scope) {bindings : List (String × Value)}
    {b : String × Value} (hb : b ∈ bindings) :
    ((μ.opening scope bindings).lookup? μ.machine.store.frames.size b.1).isSome :=
  Store.isSome_lookup?_bindAll_of_mem (by simp [Store.openIn]) hb

theorem lookup?_opening_one (μ : Moment) (scope : Scope) (name : String) (v : Value) :
    (μ.opening scope [(name, v)]).lookup? μ.machine.store.frames.size name = some v := by
  show (Store.bindIn _ _ name v).lookup? _ _ = _
  rw [Store.lookup?_bindIn _ _ _ _ _ _ (by simp [Store.openIn]), if_pos ⟨rfl, rfl⟩]

end Moment

theorem keeps_openScope (scope : Scope) (outer : Chain) {bindings : List (String × Value)}
    (hb : ∀ b ∈ bindings, b.2.Fits K μ) :
    Keeps K μ (openScope scope outer bindings) fun chain μ' =>
      chain = μ.machine.store.frames.size :: outer ∧ μ' = μ.opening scope bindings :=
  .of_ok rfl (μ.leads_opening scope bindings) (fun h => h.opening hb) fun _ => ⟨rfl, rfl⟩

/-! ## Notes -/

/-- A note of something that has no number. -/
theorem keeps_note {e : Event} (hframe : e.frame? = none) (hidentity : e.identity? = none)
    (he : μ.Sound K → e.Fits K μ.log) :
    Keeps K μ (note e) fun _ μ' => μ'.machine = μ.machine := by
  let μ' : Moment := ⟨μ.log ++ [e], μ.machine⟩
  have hl : μ.Leads μ' :=
    ⟨⟨fun e he => List.mem_append_left _ he, Nat.le_refl _, fun _ _ h => h, fun _ _ _ _ h => h⟩,
      rfl, rfl⟩
  have hrun : note e μ = .ok () μ' := rfl
  refine .of_ok hrun hl (fun hs => ?_) fun _ => rfl
  refine hs.leads hl (fun _ _ _ h => .inl h) (fun _ _ _ h => .inl h) (fun e' he' => ?_)
    (hs.frames.snoc_none hframe) (hs.identities.snoc_none hidentity)
  rcases List.mem_append.1 he' with he' | he'
  · exact .inl he'
  · rw [List.mem_singleton.1 he']
    exact .inr ((he hs).mono (fun _ h => h) hl.log)

/-- A reading is noted that happens in a chain as it should be. -/
theorem keeps_noteRead {r : Reference} {running : Option Closure}
    (h : μ.Sound K → ReadsAt K μ.log r μ.machine running) :
    Keeps K μ (noteRead r running) fun _ μ' => μ'.machine = μ.machine :=
  .get (keeps_note rfl rfl h)

theorem keeps_noteAssigned {r : Reference} {v : Value}
    (h : μ.Sound K → ∃ running, StandsAt K μ.log r μ.machine running) :
    Keeps K μ (noteAssigned r v) fun _ μ' => μ'.machine = μ.machine :=
  .get (keeps_note rfl rfl h)

/-! ## Functions and classes -/

namespace Moment

/-- Something with an identity is made. -/
def making (μ : Moment) (e : Event) : Moment where
  log := μ.log ++ [e]
  machine := { μ.machine with nextIdentity := μ.machine.nextIdentity + 1 }

theorem leads_making (μ : Moment) (e : Event) : μ.Leads (μ.making e) :=
  ⟨⟨fun _ he => List.mem_append_left _ he, Nat.le_refl _, fun _ _ h => h, fun _ _ _ _ h => h⟩,
    rfl, rfl⟩

theorem mem_log_making (μ : Moment) (e : Event) : e ∈ (μ.making e).log := by simp [making]

theorem Sound.making (h : μ.Sound K) {e : Event} (hframe : e.frame? = none)
    (hidentity : e.identity? = some μ.machine.nextIdentity) (he : e.Fits K (μ.making e).log) :
    (μ.making e).Sound K := by
  refine h.leads (μ.leads_making e) (fun _ _ _ h => .inl h) (fun _ _ _ h => .inl h)
    (fun e' he' => ?_) (h.frames.snoc_none hframe) (h.identities.snoc hidentity)
  rcases List.mem_append.1 he' with he' | he'
  · exact .inl he'
  · rw [List.mem_singleton.1 he']
    exact .inr he

end Moment

theorem keeps_close (running : Option Closure) (definition : FunctionDef) :
    Keeps K μ (close running definition) fun v μ' => ∃ f : Closure, v = .function f ∧
      f.definition = definition ∧ f.chain = μ.machine.chain ∧ f.isInitializer = false ∧
      .declared f running ∈ μ'.log := by
  let f : Closure := ⟨μ.machine.nextIdentity, definition, μ.machine.chain, false⟩
  exact .of_ok rfl (μ.leads_making (.declared f running)) (fun h => h.making rfl rfl trivial)
    fun _ => ⟨f, rfl, rfl, rfl, rfl, μ.mem_log_making _⟩

/-- A method that is bound to its receiver is a function that fits. -/
theorem keeps_bindMethod {receiver : Receiver} {method : Method}
    (hm : method.Fits K μ receiver.home) (hobject : receiver.object.Fits K μ) {name : String}
    (hfind : receiver.home.methods.find? name = some method) :
    Keeps K μ (bindMethod receiver method) fun f μ' =>
      f.Fits K μ' ∧ f.definition = method.definition := by
  let scope : Scope := .receiver method.definition
  let μ₁ := μ.opening scope [("this", receiver.object)]
  let f : Closure := ⟨μ.machine.nextIdentity, method.definition,
    μ.machine.store.frames.size :: method.chain, method.definition.isInitializer⟩
  let μ₂ := μ₁.making (.bound f receiver)
  have hl₁ : μ.Leads μ₁ := μ.leads_opening scope [("this", receiver.object)]
  have hl : μ.Leads μ₂ := hl₁.trans (μ₁.leads_making _)
  have hrun : bindMethod receiver method μ = .ok f μ₂ := rfl
  refine .of_ok hrun hl (fun h => ?_) fun _ => ⟨?_, rfl⟩
  · have h₁ : μ₁.Sound K := h.opening (by simpa using hobject)
    exact h₁.making rfl rfl ⟨name, method, hfind, rfl⟩
  · have hopened : .opened scope μ.machine.store.frames.size ∈ μ₂.log := by
      simp [μ₂, μ₁, Moment.making, Moment.opening]
    have hthis : μ₂.lookup? μ.machine.store.frames.size "this" = some receiver.object :=
      μ.lookup?_opening_one scope "this" receiver.object
    have hbound : .bound f receiver ∈ μ₂.log := μ₁.mem_log_making _
    have howner : ∀ r, some receiver = some r → Owner μ₂.log f r := fun r hr => by
      cases hr
      exact .bound hbound
    have hhas : receiver.home.Has method.definition := ⟨name, method, hfind, rfl⟩
    refine ⟨?_, fun _ => ⟨_, _, receiver, rfl, hbound, hthis⟩⟩
    cases hm with
    | plain hm hscopes hchecked =>
      exact ⟨some receiver, _, .method (hm.grows hl.toGrows) hscopes hhas hopened hthis, hchecked,
        howner⟩
    | derived hm hparent hsuper hhome hchecked =>
      exact ⟨some receiver, _, .derivedMethod (hm.grows hl.toGrows) (hl.log _ hparent)
        (hl.reserved _ _ not_chosen_super _ hsuper) (hhome.mono hl.log) hhas hopened hthis,
        hchecked, howner⟩

/-! ## Objects -/

theorem keeps_newObject {c : Class} (hc : c.Fits K μ) :
    Keeps K μ (lift (Eval.newObject c)) fun v μ' =>
      v = .object μ.machine.objects.size c ∧ v.Fits K μ' := by
  let μ' : Moment :=
    { μ with machine := { μ.machine with objects := μ.machine.objects.push [] } }
  have hl : μ.Leads μ' :=
    ⟨⟨fun _ h => h, Nat.le_refl _, fun _ _ h => h, fun _ _ _ _ h => h⟩, rfl, rfl⟩
  have hobject : Value.Fits K μ (.object μ.machine.objects.size c) := hc
  have hrun : lift (Eval.newObject c) μ = .ok _ μ' := rfl
  refine .of_ok hrun hl (fun h => ?_) fun _ => ⟨rfl, hobject.leads hl⟩
  refine h.leads hl (fun _ _ _ h => .inl h) (fun object name v hv => ?_) (fun _ h => .inl h)
    h.frames h.identities
  simp only [Moment.field?, μ', Array.getElem?_push] at hv
  split at hv
  · cases hv
  · exact .inl hv

theorem keeps_setField (identity : Nat) (name : String) {v : Value} (hv : v.Fits K μ) :
    Keeps K μ (lift (Eval.setField identity name v)) fun _ _ => True := by
  let μ' : Moment := { μ with
    machine := { μ.machine with objects := μ.machine.objects.modify identity (·.bind name v) } }
  have hl : μ.Leads μ' :=
    ⟨⟨fun _ h => h, Nat.le_refl _, fun _ _ h => h, fun _ _ _ _ h => h⟩, rfl, rfl⟩
  have hrun : lift (Eval.setField identity name v) μ = .ok () μ' := rfl
  refine .of_ok hrun hl (fun h => ?_) fun _ => trivial
  refine h.leads hl (fun _ _ _ h => .inl h) (fun object key w hw => ?_) (fun _ h => .inl h)
    h.frames h.identities
  simp only [Moment.field?, μ', Array.getElem?_modify] at hw
  split at hw
  · -- the object itself: the field that was set, or one that it had
    obtain ⟨fields, hfields, hw⟩ := Option.bind_eq_some_iff.1 hw
    obtain ⟨before, hbefore, rfl⟩ := Option.map_eq_some_iff.1 hfields
    rw [Bindings.find?_bind] at hw
    split at hw
    · cases hw
      exact .inr (hv.leads hl)
    · exact .inl (by rw [Moment.field?, hbefore]; exact hw)
  · exact .inl hw

end Lox
