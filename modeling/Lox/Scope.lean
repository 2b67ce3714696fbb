import Lox.Bindings

set_option autoImplicit false

/-! # Scopes

Variables live in frames, one for each scope that was opened. A point of a program sees a chain of
frames, the innermost first, the global one last. Chains share frames: whoever holds a chain sees
what others do to its frames. Frames are never removed, so a chain stays good for ever.

There are two ways to reach a variable. Searching (`get?`, `assign?`) takes the innermost frame
of the chain that binds the name. Counting (`getAt?`, `assignAt?`) takes the frame a given number
of steps out and looks nowhere else. -/

namespace Lox

/-- The place of a frame in the store. -/
abbrev FrameId := Nat

/-- The frames visible from a point, the innermost first. -/
abbrev Chain := List FrameId

/-- The number of frames around the innermost one. -/
def Chain.depth (chain : Chain) : Nat := chain.length - 1

/-- All frames that were ever opened. -/
structure Store (α : Type) where
  frames : Array (Bindings α)

namespace Store

variable {α : Type}

/-- No frames. -/
def empty : Store α := ⟨#[]⟩

/-! ## Frames -/

/-- What a name is bound to in a frame. -/
def lookup? (store : Store α) (frame : FrameId) (name : String) : Option α :=
  store.frames[frame]?.bind (·.find? name)

/-- Bind a name in a frame. -/
def bindIn (store : Store α) (frame : FrameId) (name : String) (value : α) : Store α :=
  ⟨store.frames.modify frame (·.bind name value)⟩

/-- Open a new scope inside a chain. -/
def openIn (store : Store α) (chain : Chain) : Chain × Store α :=
  (store.frames.size :: chain, ⟨store.frames.push []⟩)

theorem lookup?_openIn (store : Store α) (chain : Chain) (frame : FrameId) (name : String) :
    (store.openIn chain).2.lookup? frame name = store.lookup? frame name := by
  simp only [openIn, lookup?, Array.getElem?_push]
  by_cases h : frame = store.frames.size <;> simp [h, Bindings.find?]

theorem lookup?_bindIn (store : Store α) (frame other : FrameId) (name key : String) (value : α)
    (h : frame < store.frames.size) :
    (store.bindIn frame name value).lookup? other key =
      if other = frame ∧ key = name then some value else store.lookup? other key := by
  simp only [bindIn, lookup?, Array.getElem?_modify]
  by_cases hf : other = frame
  · subst hf
    by_cases hk : key = name <;> simp [h, Bindings.find?_bind, hk]
  · simp [hf, Ne.symm hf]

/-! ## Chains -/

/-- Bind a name in the innermost frame. -/
def define (store : Store α) (chain : Chain) (name : String) (value : α) : Store α :=
  match chain with
  | [] => store
  | frame :: _ => store.bindIn frame name value

/-- The innermost frame that binds a name. -/
def home? (store : Store α) (chain : Chain) (name : String) : Option FrameId :=
  chain.find? fun frame => (store.lookup? frame name).isSome

/-- The value of a name in the innermost frame that binds it. -/
def get? (store : Store α) (chain : Chain) (name : String) : Option α :=
  chain.findSome? (store.lookup? · name)

/-- Change the innermost binding of a name; there must be one. -/
def assign? (store : Store α) (chain : Chain) (name : String) (value : α) : Option (Store α) :=
  (store.home? chain name).map (store.bindIn · name value)

/-- The frame some steps out, if it binds a name. -/
def homeAt? (store : Store α) (chain : Chain) (distance : Nat) (name : String) : Option FrameId :=
  chain[distance]?.filter fun frame => (store.lookup? frame name).isSome

/-- The value of a name in the frame some steps out. -/
def getAt? (store : Store α) (chain : Chain) (distance : Nat) (name : String) : Option α :=
  chain[distance]?.bind (store.lookup? · name)

/-- Change the binding of a name in the frame some steps out; there must be one. -/
def assignAt? (store : Store α) (chain : Chain) (distance : Nat) (name : String) (value : α) :
    Option (Store α) :=
  (store.homeAt? chain distance name).map (store.bindIn · name value)

theorem get?_eq_bind_home? (store : Store α) (chain : Chain) (name : String) :
    store.get? chain name = (store.home? chain name).bind (store.lookup? · name) := by
  induction chain with
  | nil => rfl
  | cons frame chain ih =>
    simp only [get?, home?, List.findSome?_cons, List.find?_cons] at *
    cases h : store.lookup? frame name <;> simp [h, ih]

theorem getAt?_eq_bind_homeAt? (store : Store α) (chain : Chain) (distance : Nat)
    (name : String) :
    store.getAt? chain distance name =
      (store.homeAt? chain distance name).bind (store.lookup? · name) := by
  simp only [getAt?, homeAt?]
  cases chain[distance]? with
  | none => rfl
  | some frame => cases h : store.lookup? frame name <;> simp [Option.filter, h]

end Store

end Lox
