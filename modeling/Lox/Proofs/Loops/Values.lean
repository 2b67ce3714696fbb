import Lox.Proofs.Alike.Correspondence
import Lox.Proofs.Loops.Distances

set_option autoImplicit false

/-! # Frames without those of idle scopes

A machine that runs a program directly has all the frames of one that does not, in the same order, but
for those of idle scopes. Which of the frames opened so far are idle is kept in a list (`opened`). So
a frame that is kept has as its place the number of kept frames before it, in a chain (`Chain.Thins`)
as in the store (`Store.Thins`), and it never moves. -/

namespace Lox

/-! ## Places -/

/-- The place of a frame among those that are kept. -/
def place (opened : List Bool) (frame : FrameId) : FrameId := (opened.take frame).count false

/-- A frame is one of those opened so far, and is kept. -/
def IsKept (opened : List Bool) (frame : FrameId) : Prop := opened[frame]? = some false

section

variable {opened opened' : List Bool} {frame other : FrameId}

theorem IsKept.lt (h : IsKept opened frame) : frame < opened.length :=
  (List.getElem?_eq_some_iff.1 h).1

/-- What is said of a frame stays true when further ones are opened. -/
theorem getElem?_mono (hle : opened <+: opened') {idle : Bool}
    (h : opened[frame]? = some idle) : opened'[frame]? = some idle := by
  obtain ⟨further, rfl⟩ := hle
  exact (List.getElem?_append_left (List.getElem?_eq_some_iff.1 h).1).trans h

theorem IsKept.mono (h : IsKept opened frame) (hle : opened <+: opened') : IsKept opened' frame :=
  getElem?_mono hle h

/-- A frame does not move when further ones are opened. -/
theorem IsKept.place_eq (h : IsKept opened frame) (hle : opened <+: opened') :
    place opened' frame = place opened frame := by
  obtain ⟨further, rfl⟩ := hle
  rw [place, List.take_append_of_le_length h.lt.le, place]

/-- Behind a frame that is kept, one more is kept than before it. -/
theorem IsKept.count_take_succ (h : IsKept opened frame) :
    (opened.take (frame + 1)).count false = place opened frame + 1 := by
  rw [List.take_add_one, show opened[frame]? = some false from h, List.count_append, place]
  rfl

theorem IsKept.place_lt_of_lt (h : IsKept opened frame) (hlt : frame < other) :
    place opened frame < place opened other := by
  have hle : (opened.take (frame + 1)).count false ≤ (opened.take other).count false :=
    (List.take_sublist_take_left (Nat.succ_le_of_lt hlt)).count_le false
  rw [h.count_take_succ] at hle
  exact hle

theorem IsKept.place_lt (h : IsKept opened frame) : place opened frame < opened.count false := by
  have hlt := h.place_lt_of_lt h.lt
  rwa [place, place, List.take_length] at hlt

theorem IsKept.place_inj (h : IsKept opened frame) (h' : IsKept opened other) :
    place opened frame = place opened other ↔ frame = other := by
  refine ⟨fun heq => ?_, fun heq => heq ▸ rfl⟩
  rcases Nat.lt_trichotomy frame other with hlt | heq' | hlt
  · exact absurd heq (h.place_lt_of_lt hlt).ne
  · exact heq'
  · exact absurd heq (h'.place_lt_of_lt hlt).ne'

/-- The next frame, if it is kept. -/
theorem isKept_append (opened : List Bool) : IsKept (opened ++ [false]) opened.length := by
  simp [IsKept]

theorem IsKept.of_append {idle : Bool} (h : IsKept (opened ++ [idle]) frame) :
    IsKept opened frame ∨ frame = opened.length ∧ idle = false := by
  rcases Nat.lt_or_ge frame opened.length with hlt | hle
  · exact .inl (by rwa [IsKept, List.getElem?_append_left hlt] at h)
  · have hlt := h.lt
    rw [List.length_append] at hlt
    obtain rfl := Nat.le_antisymm (Nat.lt_succ_iff.1 hlt) hle
    exact .inr ⟨rfl, by simpa [IsKept] using h⟩

theorem place_append (opened : List Bool) :
    place (opened ++ [false]) opened.length = opened.count false := by
  rw [place, List.take_left']
  rfl

end

/-! ## Chains -/

/-- A chain of frames, the same without the idle ones, and which of them are idle. -/
inductive Chain.Thins (opened : List Bool) : Chain → Chain → List Bool → Prop
  | nil : Thins opened [] [] []
  | idle {frame : FrameId} {chain chain' : Chain} {marks : List Bool} :
      opened[frame]? = some true → Thins opened chain chain' marks →
      Thins opened (frame :: chain) chain' (true :: marks)
  | kept {frame : FrameId} {chain chain' : Chain} {marks : List Bool} :
      IsKept opened frame → Thins opened chain chain' marks →
      Thins opened (frame :: chain) (place opened frame :: chain') (false :: marks)

namespace Chain.Thins

variable {opened opened' : List Bool} {chain chain' : Chain} {marks : List Bool}

theorem mono (h : chain.Thins opened chain' marks) (hle : opened <+: opened') :
    chain.Thins opened' chain' marks := by
  induction h with
  | nil => exact .nil
  | idle hframe _ ih => exact .idle (getElem?_mono hle hframe) ih
  | kept hframe _ ih =>
    rw [← hframe.place_eq hle]
    exact .kept (hframe.mono hle) ih

/-- A frame that is kept, some steps out, is that many steps out but for the idle ones. -/
theorem getElem? (h : chain.Thins opened chain' marks) {d : Nat} (hd : marks[d]? = some false) :
    ∃ frame, chain[d]? = some frame ∧ IsKept opened frame ∧
      chain'[(marks.take d).count false]? = some (place opened frame) := by
  induction h generalizing d with
  | nil => cases hd
  | @idle frame _ _ _ _ _ ih =>
    cases d with
    | zero => cases hd
    | succ d =>
      obtain ⟨frame, hframe, hkept, hplace⟩ := ih hd
      exact ⟨frame, hframe, hkept, by simpa using hplace⟩
  | @kept frame _ _ _ hframe _ ih =>
    cases d with
    | zero => exact ⟨frame, rfl, hframe, rfl⟩
    | succ d =>
      obtain ⟨frame, hframe, hkept, hplace⟩ := ih hd
      exact ⟨frame, hframe, hkept, by simpa using hplace⟩

end Chain.Thins

/-! ## Values -/

/-- A function and the same function in the chain without idle frames. The scopes of its chain are
    those around its declaration. An initializer has its object in the innermost one. -/
structure Closure.Thins (T : Tables) (opened : List Bool) (f f' : Closure) : Prop where
  same : f' = { f with chain := f'.chain }
  scopes : ∃ scopes : Scopes, f.chain.Thins opened f'.chain scopes.marks ∧
    f.definition.Checked T.Knows scopes ∧ (f.isInitializer = true → scopes.idle = false)

/-- A method lives inside the scope of its `this`. -/
structure Method.Thins (T : Tables) (opened : List Bool) (m m' : Method) : Prop where
  same : m' = { m with chain := m'.chain }
  scopes : ∃ scopes : Scopes, m.chain.Thins opened m'.chain scopes.marks ∧
    m.definition.Checked T.Knows (m.definition.receiver :: scopes)

/-- Functions and methods are the same but for the idle frames in their chains. -/
def Tables.correspondence (T : Tables) (opened : List Bool) : Correspondence where
  functions := Closure.Thins T opened
  methods := Method.Thins T opened
  identity h := by rw [h.same]
  name h := by rw [h.same]
  size h := by rw [h.same]
  methodSize h := by rw [h.same]

/-- Two values that are the same but for idle frames. -/
abbrev Value.Thins (T : Tables) (opened : List Bool) : Value → Value → Prop :=
  Value.Under (T.correspondence opened)

/-- What is said of values stays true when further frames are opened, and when more references are
    known. -/
theorem Tables.le {T T' : Tables} (hk : ∀ site, T.Knows site → T'.Knows site)
    {opened opened' : List Bool} (hle : opened <+: opened') :
    (T.correspondence opened).Le (T'.correspondence opened') where
  functions := by
    rintro f f' ⟨hsame, scopes, hchain, hchecked, hinit⟩
    exact ⟨hsame, scopes, hchain.mono hle, FunctionDef.Checked.mono hk _ hchecked, hinit⟩
  methods := by
    rintro m m' ⟨hsame, scopes, hchain, hchecked⟩
    exact ⟨hsame, scopes, hchain.mono hle, FunctionDef.Checked.mono hk _ hchecked⟩

section

variable {T : Tables} {opened opened' : List Bool} (hle : opened <+: opened')

include hle

theorem Closure.Thins.further {f f' : Closure} (h : f.Thins T opened f') : f.Thins T opened' f' :=
  (Tables.le (fun _ hk => hk) hle).functions f f' h

theorem Class.Under.further {c c' : Class} (h : c.Under (T.correspondence opened) c') :
    c.Under (T.correspondence opened') c' :=
  h.mono (Tables.le (fun _ hk => hk) hle)

theorem Value.Under.further {v v' : Value} (h : v.Thins T opened v') : v.Thins T opened' v' :=
  h.mono (Tables.le (fun _ hk => hk) hle)

end

/-! ## Frames -/

/-- Two stores with the same variables, one of them without the idle frames. -/
structure Store.Thins (T : Tables) (opened : List Bool) (store store' : Store Value) : Prop where
  size : store.frames.size = opened.length
  size' : store'.frames.size = opened.count false
  lookup : ∀ frame, IsKept opened frame → ∀ name,
    Option.Rel (Value.Thins T opened) (store.lookup? frame name)
      (store'.lookup? (place opened frame) name)

namespace Store.Thins

variable {T : Tables} {opened : List Bool} {store store' : Store Value}
  (h : store.Thins T opened store')

include h

theorem bindIn {frame : FrameId} (hframe : IsKept opened frame) (name : String) {v v' : Value}
    (hv : v.Thins T opened v') :
    (store.bindIn frame name v).Thins T opened
      (store'.bindIn (place opened frame) name v') := by
  refine ⟨by simpa [Store.bindIn] using h.size, by simpa [Store.bindIn] using h.size',
    fun other hother key => ?_⟩
  -- places are different for different frames, so one variable changes in each store
  rw [lookup?_bindIn _ _ _ _ _ _ (h.size.symm ▸ hframe.lt),
    lookup?_bindIn _ _ _ _ _ _ (h.size'.symm ▸ hframe.place_lt)]
  simp only [hother.place_inj hframe]
  split
  · exact .some hv
  · exact h.lookup other hother key

/-- A variable of a frame that was opened before. -/
theorem lookup_openIn {idle : Bool} {frame : FrameId} (hframe : IsKept opened frame) (chain : Chain)
    (name : String) :
    Option.Rel (Value.Thins T (opened ++ [idle])) ((store.openIn chain).2.lookup? frame name)
      (store'.lookup? (place (opened ++ [idle]) frame) name) := by
  have hle : opened <+: opened ++ [idle] := List.prefix_append _ _
  rw [lookup?_openIn, hframe.place_eq hle]
  exact rel_mono (fun _ _ hv => hv.further hle) (h.lookup frame hframe name)

/-- A new frame that is kept. -/
theorem openIn (chain chain' : Chain) :
    (store.openIn chain).2.Thins T (opened ++ [false]) (store'.openIn chain').2 := by
  refine ⟨by simp [Store.openIn, h.size], by simp [Store.openIn, h.size'],
    fun frame hframe name => ?_⟩
  rcases hframe.of_append with hkept | ⟨rfl, -⟩
  · rw [lookup?_openIn store']
    exact h.lookup_openIn hkept chain name
  · rw [lookup?_openIn, lookup?_openIn, place_append, Store.lookup?, Store.lookup?,
      Array.getElem?_eq_none h.size.le, Array.getElem?_eq_none h.size'.le]
    exact .none

/-- A new frame that is idle. -/
theorem openIdle (chain : Chain) : (store.openIn chain).2.Thins T (opened ++ [true]) store' := by
  refine ⟨by simp [Store.openIn, h.size], by simp [h.size'], fun frame hframe name => ?_⟩
  rcases hframe.of_append with hkept | ⟨-, hidle⟩
  · exact h.lookup_openIn hkept chain name
  · cases hidle

/-- A chain of which the innermost frame is kept. -/
theorem define {chain chain' : Chain} {marks : List Bool}
    (hchain : chain.Thins opened chain' (false :: marks)) (name : String) {v v' : Value}
    (hv : v.Thins T opened v') :
    (store.define chain name v).Thins T opened (store'.define chain' name v') := by
  cases hchain with | kept hframe _ => exact h.bindIn hframe name hv

theorem defineAll {chain chain' : Chain} {marks : List Bool}
    (hchain : chain.Thins opened chain' (false :: marks)) {names : List String} {vs vs' : List Value}
    (hvs : List.Forall₂ (Value.Thins T opened) vs vs') :
    ((names.zip vs).foldl (fun store b => store.define chain b.1 b.2) store).Thins T opened
      ((names.zip vs').foldl (fun store b => store.define chain' b.1 b.2) store') := by
  induction hvs generalizing names store store' with
  | nil =>
    rw [List.zip_nil_right]
    exact h
  | cons hv _ ih =>
    cases names with
    | nil => exact h
    | cons name names => exact ih (h.define hchain name hv)

section

variable {chain chain' : Chain} {marks : List Bool} (hchain : chain.Thins opened chain' marks)
  {d : Nat} (hd : marks[d]? = some false)

include hchain hd

theorem getAt? (name : String) :
    Option.Rel (Value.Thins T opened) (store.getAt? chain d name)
      (store'.getAt? chain' ((marks.take d).count false) name) := by
  obtain ⟨frame, hframe, hkept, hplace⟩ := hchain.getElem? hd
  rw [Store.getAt?, Store.getAt?, hframe, hplace]
  exact h.lookup frame hkept name

theorem homeAt? (name : String) :
    Option.Rel (fun frame frame' => IsKept opened frame ∧ frame' = place opened frame)
      (store.homeAt? chain d name) (store'.homeAt? chain' ((marks.take d).count false) name) := by
  obtain ⟨frame, hframe, hkept, hplace⟩ := hchain.getElem? hd
  rw [Store.homeAt?, Store.homeAt?, hframe, hplace, Option.filter_some, Option.filter_some,
    isSome_of_rel (h.lookup frame hkept name)]
  split
  · exact .some ⟨hkept, rfl⟩
  · exact .none

end

/-! ### The global scope -/

variable (hglobal : IsKept opened 0)

include hglobal

theorem get?_global (name : String) :
    Option.Rel (Value.Thins T opened) (store.get? globalChain name)
      (store'.get? globalChain name) := by
  have hvalue := h.lookup 0 hglobal name
  rw [show place opened 0 = 0 from rfl] at hvalue
  rw [globalChain, Store.get?, Store.get?, List.findSome?_cons, List.findSome?_cons]
  generalize store.lookup? 0 name = value at hvalue ⊢
  generalize store'.lookup? 0 name = value' at hvalue ⊢
  cases hvalue with
  | none => exact .none
  | some hv => exact .some hv

theorem home?_global (name : String) :
    Option.Rel (fun frame frame' => IsKept opened frame ∧ frame' = place opened frame)
      (store.home? globalChain name) (store'.home? globalChain name) := by
  have hbound := isSome_of_rel (h.lookup 0 hglobal name)
  rw [show place opened 0 = 0 from rfl] at hbound
  rw [globalChain, Store.home?, Store.home?, List.find?_singleton, List.find?_singleton, hbound]
  split
  · exact .some ⟨hglobal, rfl⟩
  · exact .none

end Store.Thins

end Lox
