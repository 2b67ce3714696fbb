import Lox.Proofs.Run.Limits
import Lox.Proofs.Run.Objects

set_option autoImplicit false

/-! # What is settled in a machine

Which frame lies around which, and of which class an object is, is settled when it is made. The
machine keeps neither in a table: chains are passed on with closures and methods, classes with
objects. A `Ledger` is such a table, and a machine follows it (`Machine.Follows`) if every chain and
every object that it holds agrees with it. As time goes by a ledger is only added to (`Ledger.Le`).

The frames of a machine and the fields of its objects do change. `Machine.Retains` says what of them
is retained. -/

namespace Lox

/-! ## Ledgers -/

/-- What is settled about frames and objects. -/
structure Ledger where
  /-- The frame directly around each frame; there is none around the global one. -/
  enclosing : Array (Option FrameId)
  /-- The class of each object. -/
  classes : Array Class

namespace Ledger

/-- The ledger before the first program. -/
def start : Ledger := ⟨#[none], #[]⟩

/-- What is settled in one ledger is settled in the other. -/
structure Le (L L' : Ledger) : Prop where
  enclosing : ∀ (frame : FrameId) (around : Option FrameId), L.enclosing[frame]? = some around →
    L'.enclosing[frame]? = some around
  classes : ∀ (identity : Nat) (c : Class), L.classes[identity]? = some c →
    L'.classes[identity]? = some c

theorem Le.refl (L : Ledger) : L.Le L := ⟨fun _ _ h => h, fun _ _ h => h⟩

theorem Le.trans {L₁ L₂ L₃ : Ledger} (h : L₁.Le L₂) (h' : L₂.Le L₃) : L₁.Le L₃ :=
  ⟨fun _ _ hat => h'.enclosing _ _ (h.enclosing _ _ hat),
    fun _ _ hat => h'.classes _ _ (h.classes _ _ hat)⟩

/-- Every frame but the global one lies inside an earlier one. -/
structure Proper (L : Ledger) : Prop where
  global : L.enclosing[0]? = some none
  only : ∀ frame : FrameId, L.enclosing[frame]? = some none → frame = 0
  inside : ∀ frame around : FrameId, L.enclosing[frame]? = some (some around) → around < frame

/-- A chain that leads from its innermost frame to the global one, as is settled. -/
inductive Lists (L : Ledger) : Chain → Prop
  | global : L.enclosing[0]? = some none → Lists L globalChain
  | inside {frame around : FrameId} {outer : Chain} : L.enclosing[frame]? = some (some around) →
      Lists L (around :: outer) → Lists L (frame :: around :: outer)

variable {L L' : Ledger} {chain : Chain}

theorem Lists.mono (h : L.Lists chain) (hle : L.Le L') : L'.Lists chain := by
  induction h with
  | global hat => exact .global (hle.enclosing _ _ hat)
  | inside hat _ ih => exact .inside (hle.enclosing _ _ hat) ih

/-- The innermost frame of a chain is there, and the rest of the chain is what lies around it. -/
theorem Lists.head (h : L.Lists chain) :
    ∃ frame outer, chain = frame :: outer ∧ L.enclosing[frame]? = some outer.head? := by
  cases h with
  | global hat => exact ⟨0, [], rfl, hat⟩
  | inside hat _ => exact ⟨_, _, rfl, hat⟩

/-- Every chain ends in the global scope. -/
theorem Lists.getLast? (h : L.Lists chain) : chain.getLast? = some 0 := by
  induction h with
  | global => rfl
  | inside _ _ ih => rw [List.getLast?_cons_cons, ih]

/-- A chain leads to earlier and earlier frames. -/
theorem Lists.decreasing (h : L.Lists chain) (hproper : L.Proper) :
    chain.IsChain (fun frame around => around < frame) := by
  induction h with
  | global => exact .singleton 0
  | inside hat _ ih => exact .cons_cons (hproper.inside _ _ hat) ih

/-- There is one chain from a frame on. -/
theorem Lists.unique {chain' : Chain} (h : L.Lists chain) (h' : L.Lists chain')
    (hhead : chain.head? = chain'.head?) : chain = chain' := by
  induction h generalizing chain' with
  | global hat =>
    cases h' with
    | global => rfl
    | inside hat' _ =>
      cases Option.some.inj hhead
      exact nomatch hat.symm.trans hat'
  | inside hat _ ih =>
    cases h' with
    | global hat' =>
      cases Option.some.inj hhead
      exact nomatch hat.symm.trans hat'
    | inside hat' hrest =>
      cases Option.some.inj hhead
      cases hat.symm.trans hat'
      rw [ih hrest rfl]

/-- From every frame a chain leads to the global scope. -/
theorem Proper.exists_lists (hproper : L.Proper) {frame : FrameId}
    (hframe : frame < L.enclosing.size) : ∃ outer, L.Lists (frame :: outer) := by
  -- outwards from a frame there are earlier ones only
  induction frame using Nat.strongRecOn with
  | _ frame ih =>
    cases hat : L.enclosing[frame] with
    | none =>
      have hat : L.enclosing[frame]? = some none := by rw [Array.getElem?_eq_getElem hframe, hat]
      obtain rfl := hproper.only frame hat
      exact ⟨[], .global hat⟩
    | some around =>
      have hat : L.enclosing[frame]? = some (some around) := by
        rw [Array.getElem?_eq_getElem hframe, hat]
      have hlt := hproper.inside frame around hat
      obtain ⟨outer, h⟩ := ih around hlt (Nat.lt_trans hlt hframe)
      exact ⟨around :: outer, .inside hat h⟩

/-- Something is added for a new frame inside a chain. -/
def opened (L : Ledger) (outer : Chain) : Ledger :=
  { L with enclosing := L.enclosing.push outer.head? }

/-- Something is added for a new object. -/
def made (L : Ledger) (c : Class) : Ledger := { L with classes := L.classes.push c }

theorem getElem?_push_of_some {α : Type} {xs : Array α} {i : Nat} {a : α} (b : α)
    (h : xs[i]? = some a) : (xs.push b)[i]? = some a := by
  obtain ⟨hlt, -⟩ := Array.getElem?_eq_some_iff.1 h
  rw [Array.getElem?_push, if_neg (Nat.ne_of_lt hlt), h]

theorem le_opened (L : Ledger) (outer : Chain) : L.Le (L.opened outer) :=
  ⟨fun _ _ => getElem?_push_of_some _, fun _ _ h => h⟩

theorem le_made (L : Ledger) (c : Class) : L.Le (L.made c) :=
  ⟨fun _ _ h => h, fun _ _ => getElem?_push_of_some _⟩

theorem getElem?_opened (outer : Chain) :
    (L.opened outer).enclosing[L.enclosing.size]? = some outer.head? := by
  simp [opened]

theorem lists_opened {outer : Chain} (h : L.Lists outer) :
    (L.opened outer).Lists (L.enclosing.size :: outer) := by
  obtain ⟨frame, rest, rfl, -⟩ := h.head
  exact .inside (getElem?_opened (frame :: rest)) (h.mono (L.le_opened _))

theorem Proper.opened {outer : Chain} (hproper : L.Proper) (h : L.Lists outer) :
    (L.opened outer).Proper := by
  obtain ⟨head, rest, rfl, hhead⟩ := h.head
  have hlt : head < L.enclosing.size := (Array.getElem?_eq_some_iff.1 hhead).1
  refine ⟨(L.le_opened _).enclosing _ _ hproper.global, fun frame hat => ?_,
    fun frame around hat => ?_⟩
  -- for the new frame and for any other, whether it has one around it and whether this is earlier
  all_goals rw [Ledger.opened, Array.getElem?_push] at hat
  all_goals split at hat
  · cases hat
  · exact hproper.only frame hat
  · next heq =>
    cases hat
    exact heq ▸ hlt
  · exact hproper.inside frame around hat

end Ledger

/-! ## Machines that follow a ledger -/

section

variable {L L' : Ledger}

/-- The methods of a class have been made in chains as is settled. -/
def ClassBody.Follows (L : Ledger) (body : ClassBody) : Prop :=
  ∀ name method, body.methods.find? name = some method → L.Lists method.chain

/-- So have those of its ancestors. -/
def Class.Follows (L : Ledger) (c : Class) : Prop := ∀ body ∈ c.lineage, body.Follows L

/-- The chains in a value lead to the global scope as is settled, and an object is of the class that
    is settled. -/
def Value.Follows (L : Ledger) : Value → Prop
  | .function f => L.Lists f.chain
  | .class c => c.Follows L
  | .object identity c => L.classes[identity]? = some c ∧ c.Follows L
  | _ => True

/-- All chains and objects in a machine are as is settled. -/
structure Machine.Follows (L : Ledger) (m : Machine) : Prop where
  proper : L.Proper
  frames : m.store.frames.size = L.enclosing.size
  objects : m.objects.size = L.classes.size
  chain : L.Lists m.chain
  values : ∀ frame name v, m.store.lookup? frame name = some v → v.Follows L
  fields : ∀ identity name v, fieldOf? m.objects identity name = some v → v.Follows L

theorem ClassBody.Follows.mono {body : ClassBody} (h : body.Follows L) (hle : L.Le L') :
    body.Follows L' :=
  fun name method hmethod => (h name method hmethod).mono hle

theorem Class.Follows.mono {c : Class} (h : c.Follows L) (hle : L.Le L') : c.Follows L' :=
  fun body hbody => (h body hbody).mono hle

theorem Value.Follows.mono {v : Value} (h : v.Follows L) (hle : L.Le L') : v.Follows L' := by
  cases v with
  | function f => exact Ledger.Lists.mono h hle
  | «class» c => exact Class.Follows.mono h hle
  | object identity c => exact ⟨hle.classes _ _ h.1, h.2.mono hle⟩
  | _ => trivial

theorem Value.Simple.follows {v : Value} (h : v.Simple) : v.Follows L := by
  cases v <;> trivial

/-- A method that a class finds has been made in a chain as is settled. -/
theorem Class.Follows.method {c : Class} (h : c.Follows L) {name : String} {method : Method}
    (hmethod : c.method? name = some method) : L.Lists method.chain := by
  obtain ⟨body, hbody, hfind⟩ := List.exists_of_findSome?_eq_some hmethod
  exact h body hbody name method hfind

/-- A machine that differs in other things than values. -/
theorem Machine.Follows.of_eq {m m' : Machine} (h : m.Follows L) (hstore : m'.store = m.store)
    (hobjects : m'.objects = m.objects) (hchain : L.Lists m'.chain) : m'.Follows L where
  proper := h.proper
  frames := hstore ▸ h.frames
  objects := hobjects ▸ h.objects
  chain := hchain
  values := hstore ▸ h.values
  fields := hobjects ▸ h.fields

theorem Machine.follows_start (output : Output) (reading : Nat → Float) :
    (Machine.start output reading).Follows .start where
  proper := by
    refine ⟨rfl, fun frame hat => ?_, fun frame around hat => ?_⟩
    all_goals obtain ⟨hlt, hat⟩ := Array.getElem?_eq_some_iff.1 hat
    · exact Nat.lt_one_iff.1 hlt
    · obtain rfl := Nat.lt_one_iff.1 hlt
      cases hat
  frames := rfl
  objects := rfl
  chain := .global rfl
  values _ _ v h := by
    rcases Store.lookup?_of_bindIn _ _ h with ⟨-, -, rfl⟩ | h
    · trivial
    · rw [Store.lookup?_openIn] at h
      simp [Store.lookup?, Store.empty] at h
  fields _ _ v h := by simp [fieldOf?, Machine.start] at h

end

/-! ## Machines that retain what was bound -/

/-- A later machine, in the same scope, that has lost no frame, name, object or field. No frame that
    was there has got a name, unless the innermost one may. -/
structure Machine.Retains (declares : Bool) (m m' : Machine) : Prop where
  chain : m'.chain = m.chain
  frames : m.store.frames.size ≤ m'.store.frames.size
  objects : m.objects.size ≤ m'.objects.size
  bound : ∀ frame name, (m.store.lookup? frame name).isSome → (m'.store.lookup? frame name).isSome
  names : ∀ frame < m.store.frames.size, (declares = true → m.chain.head? ≠ some frame) →
    ∀ name, (m'.store.lookup? frame name).isSome → (m.store.lookup? frame name).isSome
  fields : ∀ identity name, (fieldOf? m.objects identity name).isSome →
    (fieldOf? m'.objects identity name).isSome

namespace Machine.Retains

variable {declares : Bool} {m m' m'' : Machine}

theorem refl (m : Machine) : m.Retains declares m :=
  ⟨rfl, Nat.le_refl _, Nat.le_refl _, fun _ _ h => h, fun _ _ _ _ h => h, fun _ _ h => h⟩

theorem of_eq (hstore : m'.store = m.store) (hobjects : m'.objects = m.objects)
    (hchain : m'.chain = m.chain) : m.Retains declares m' := by
  refine ⟨hchain, ?_, ?_, ?_, ?_, ?_⟩ <;> simp [hstore, hobjects]

theorem trans (h : m.Retains declares m') (h' : m'.Retains declares m'') :
    m.Retains declares m'' where
  chain := h'.chain.trans h.chain
  frames := Nat.le_trans h.frames h'.frames
  objects := Nat.le_trans h.objects h'.objects
  bound frame name hb := h'.bound frame name (h.bound frame name hb)
  names frame hframe hne name hb :=
    h.names frame hframe hne name <| h'.names frame (Nat.lt_of_lt_of_le hframe h.frames)
      (fun hd => h.chain ▸ hne hd) name hb
  fields identity name hf := h'.fields identity name (h.fields identity name hf)

theorem mono (h : m.Retains false m') : m.Retains declares m' :=
  { h with names := fun frame hframe _ => h.names frame hframe nofun }

end Machine.Retains

end Lox
