import Lox.Proofs.Alike.Values
import Lox.Proofs.Renaming.Trees

set_option autoImplicit false

/-! # Machines in which a variable has another name

A program and the same program with a variable renamed open the same frames. A frame is marked if it
was opened for a scope that is marked: what one machine binds to the old name in it, the other binds
to the new one. Which frames are marked is known only as they are opened, so all that is said here
about values and machines is said for the frames opened so far (`opened`), and stays true when
further ones are opened (`Value.Renamed.mono`). -/

namespace Lox

/-! ## Chains of frames -/

/-- A frame keeps its mark. -/
theorem mark_of_prefix {opened opened' : List Bool} (hle : opened <+: opened') {frame : FrameId}
    {marked : Bool} (h : opened[frame]? = some marked) : opened'[frame]? = some marked := by
  obtain ⟨further, rfl⟩ := hle
  exact (List.getElem?_append_left (List.getElem?_eq_some_iff.1 h).1).trans h

/-- The marks of the frames of a chain. -/
def Chain.Marked (opened : List Bool) (chain : Chain) (marks : List Bool) : Prop :=
  List.Forall₂ (fun frame marked => opened[frame]? = some marked) chain marks

namespace Chain.Marked

variable {opened opened' marks : List Bool} {chain : Chain}

theorem mono (hle : opened <+: opened') (h : chain.Marked opened marks) :
    chain.Marked opened' marks :=
  List.Forall₂.imp (fun _ _ hframe => mark_of_prefix hle hframe) h

theorem getElem? (h : chain.Marked opened marks) {distance : Nat} {frame : FrameId}
    (hframe : chain[distance]? = some frame) :
    opened[frame]? = some (marks.getD distance false) := by
  induction h generalizing distance with
  | nil => simp at hframe
  | cons hf _ ih =>
    cases distance with
    | zero =>
      obtain rfl := Option.some.inj hframe
      exact hf
    | succ distance => exact ih hframe

end Chain.Marked

/-! ## Values -/

section

variable (ρ : Renaming) (opened : List Bool)

/-- A method lives inside the scope of its `this`, which is not marked. -/
structure Method.Renamed (m m' : Method) : Prop where
  definition : ∃ marks, m.chain.Marked opened marks ∧
    m.definition.Renamed ρ (false :: marks) m'.definition
  chain : m'.chain = m.chain

structure Closure.Renamed (f f' : Closure) : Prop where
  identity : f'.identity = f.identity
  definition : ∃ marks, f.chain.Marked opened marks ∧ f.definition.Renamed ρ marks f'.definition
  chain : f'.chain = f.chain
  isInitializer : f'.isInitializer = f.isInitializer

structure ClassBody.Renamed (b b' : ClassBody) : Prop where
  identity : b'.identity = b.identity
  name : b'.name = b.name
  methods : ∀ name,
    Option.Rel (Method.Renamed ρ opened) (b.methods.find? name) (b'.methods.find? name)

def Class.Renamed (c c' : Class) : Prop :=
  List.Forall₂ (ClassBody.Renamed ρ opened) c.lineage c'.lineage

/-- Two values that are the same but for the variable in the declarations in them. -/
inductive Value.Renamed : Value → Value → Prop
  | nil : Value.Renamed .nil .nil
  | bool (b : Bool) : Value.Renamed (.bool b) (.bool b)
  | number (x : Float) : Value.Renamed (.number x) (.number x)
  | string (s : String) : Value.Renamed (.string s) (.string s)
  | native (f : Native) : Value.Renamed (.native f) (.native f)
  | function {f f' : Closure} : f.Renamed ρ opened f' → Value.Renamed (.function f) (.function f')
  | class {c c' : Class} : c.Renamed ρ opened c' → Value.Renamed (.class c) (.class c')
  | object {c c' : Class} (identity : Nat) : c.Renamed ρ opened c' →
      Value.Renamed (.object identity c) (.object identity c')

end

section

variable {ρ : Renaming} {opened opened' : List Bool} (hle : opened <+: opened')

include hle

theorem Method.Renamed.mono {m m' : Method} (h : m.Renamed ρ opened m') :
    m.Renamed ρ opened' m' := by
  obtain ⟨⟨marks, hmarks, hdefinition⟩, hchain⟩ := h
  exact ⟨⟨marks, hmarks.mono hle, hdefinition⟩, hchain⟩

theorem Closure.Renamed.mono {f f' : Closure} (h : f.Renamed ρ opened f') :
    f.Renamed ρ opened' f' := by
  obtain ⟨marks, hmarks, hdefinition⟩ := h.definition
  exact { h with definition := ⟨marks, hmarks.mono hle, hdefinition⟩ }

end

/-! ### What corresponds to each other

Functions and methods that are the same but for the variable are a correspondence, and the values
that it makes correspond are those that are the same but for the variable. -/

section

variable {ρ : Renaming} {opened opened' : List Bool}

def Renaming.correspondence (ρ : Renaming) (opened : List Bool) : Correspondence where
  functions := Closure.Renamed ρ opened
  methods := Method.Renamed ρ opened
  identity h := h.identity
  name h := by
    obtain ⟨_, _, hf⟩ := h.definition
    rw [hf.name]
  size h := by
    obtain ⟨_, _, hf⟩ := h.definition
    exact hf.length_params
  methodSize h := by
    obtain ⟨_, _, hf⟩ := h.definition
    exact hf.length_params

theorem ClassBody.renamed_iff_under {b b' : ClassBody} :
    b.Renamed ρ opened b' ↔ b.Under (ρ.correspondence opened) b' :=
  ⟨fun h => ⟨h.identity, h.name, h.methods⟩, fun h => ⟨h.identity, h.name, h.methods⟩⟩

theorem Class.renamed_iff_under {c c' : Class} :
    c.Renamed ρ opened c' ↔ c.Under (ρ.correspondence opened) c' :=
  ⟨List.Forall₂.imp fun _ _ => ClassBody.renamed_iff_under.1,
    List.Forall₂.imp fun _ _ => ClassBody.renamed_iff_under.2⟩

theorem Value.renamed_iff_under {v v' : Value} :
    v.Renamed ρ opened v' ↔ v.Under (ρ.correspondence opened) v' := by
  constructor <;> intro h
  · cases h with
    | function h => exact .function h
    | «class» h => exact .class (Class.renamed_iff_under.1 h)
    | object identity h => exact .object identity (Class.renamed_iff_under.1 h)
    | nil | bool | number | string | native => constructor
  · cases h with
    | function h => exact .function h
    | «class» h => exact .class (Class.renamed_iff_under.2 h)
    | object identity h => exact .object identity (Class.renamed_iff_under.2 h)
    | nil | bool | number | string | native => constructor

section

variable (hle : opened <+: opened')

include hle

theorem Renaming.correspondence_le : (ρ.correspondence opened).Le (ρ.correspondence opened') :=
  ⟨fun _ _ hf => Closure.Renamed.mono hle hf, fun _ _ hm => Method.Renamed.mono hle hm⟩

theorem Class.Renamed.mono {c c' : Class} (h : c.Renamed ρ opened c') : c.Renamed ρ opened' c' :=
  Class.renamed_iff_under.2
    ((Class.renamed_iff_under.1 h).mono (Renaming.correspondence_le hle))

theorem Value.Renamed.mono {v v' : Value} (h : v.Renamed ρ opened v') : v.Renamed ρ opened' v' :=
  Value.renamed_iff_under.2
    ((Value.renamed_iff_under.1 h).mono (Renaming.correspondence_le hle))

end

theorem Class.Renamed.method? {c c' : Class} (h : c.Renamed ρ opened c') (name : String) :
    Option.Rel (Method.Renamed ρ opened) (c.method? name) (c'.method? name) :=
  (Class.renamed_iff_under.1 h).method? name

/-- Renamed declarations make renamed methods. -/
theorem methodsOf_renamed {marks : List Bool} {chain : Chain} (hchain : chain.Marked opened marks)
    {fs fs' : List FunctionDef} (h : MethodsRenamed ρ (false :: marks) fs fs') (name : String) :
    Option.Rel (Method.Renamed ρ opened) ((methodsOf chain fs).find? name)
      ((methodsOf chain fs').find? name) := by
  refine methodsOf_under (C := ρ.correspondence opened) ?_ name
  induction fs generalizing fs' with
  | nil =>
    cases h
    exact .nil
  | cons f fs ih =>
    cases h with
    | cons hf hfs => exact .cons ⟨by rw [hf.name], ⟨marks, hchain, hf⟩, rfl⟩ (ih hfs)

namespace Value.Renamed

variable {v v' : Value}

theorem isTruthy (h : v.Renamed ρ opened v') : v'.isTruthy = v.isTruthy :=
  (Value.renamed_iff_under.1 h).isTruthy

theorem text (h : v.Renamed ρ opened v') : v'.text = v.text :=
  (Value.renamed_iff_under.1 h).text

theorem arity? (h : v.Renamed ρ opened v') : v'.arity? = v.arity? :=
  (Value.renamed_iff_under.1 h).arity?

end Value.Renamed

end

/-! ## Frames -/

/-- Two stores with the same variables, some of them under the other name. -/
structure Store.Renamed (ρ : Renaming) (opened : List Bool) (store store' : Store Value) :
    Prop where
  size : store.frames.size = opened.length
  size' : store'.frames.size = opened.length
  lookup : ∀ frame marked, opened[frame]? = some marked → ∀ name,
    Option.Rel (Value.Renamed ρ opened) (store.lookup? frame name)
      (store'.lookup? frame (ρ.key marked name))

/-- Two lists of bindings for a frame that is marked or not. -/
def BindingsRenamed (ρ : Renaming) (opened : List Bool) (marked : Bool)
    (bs bs' : List (String × Value)) : Prop :=
  List.Forall₂ (fun b b' => b'.1 = ρ.key marked b.1 ∧ b.2.Renamed ρ opened b'.2) bs bs'

section

variable {ρ : Renaming} {opened : List Bool} {marked : Bool}

theorem BindingsRenamed.mono {opened' : List Bool} (hle : opened <+: opened')
    {bs bs' : List (String × Value)} (h : BindingsRenamed ρ opened marked bs bs') :
    BindingsRenamed ρ opened' marked bs bs' :=
  List.Forall₂.imp (fun _ _ hb => ⟨hb.1, hb.2.mono hle⟩) h

/-- A name of the language itself, in a frame that is not marked. -/
theorem bindingsRenamed_one (name : String) {v v' : Value} (h : v.Renamed ρ opened v') :
    BindingsRenamed ρ opened false [(name, v)] [(name, v')] :=
  .cons ⟨rfl, h⟩ .nil

theorem bindingsRenamed_zip {names names' : List String}
    (hnames : names' = names.map (ρ.key marked)) {vs vs' : List Value}
    (h : List.Forall₂ (Value.Renamed ρ opened) vs vs') :
    BindingsRenamed ρ opened marked (names.zip vs) (names'.zip vs') := by
  subst hnames
  induction h generalizing names with
  | nil =>
    rw [List.zip_nil_right, List.zip_nil_right]
    exact .nil
  | cons hv _ ih =>
    cases names with
    | nil => exact .nil
    | cons name names => exact .cons ⟨rfl, hv⟩ ih

namespace Store.Renamed

variable {store store' : Store Value} (h : store.Renamed ρ opened store')

include h

theorem bindIn {frame : FrameId} (hframe : opened[frame]? = some marked) (name : String)
    {v v' : Value} (hv : v.Renamed ρ opened v') :
    (store.bindIn frame name v).Renamed ρ opened
      (store'.bindIn frame (ρ.key marked name) v') := by
  have hlt : frame < opened.length := (List.getElem?_eq_some_iff.1 hframe).1
  refine ⟨by simpa [Store.bindIn] using h.size, by simpa [Store.bindIn] using h.size',
    fun other marked' hother key => ?_⟩
  rw [lookup?_bindIn _ _ _ _ _ _ (h.size.symm ▸ hlt),
    lookup?_bindIn _ _ _ _ _ _ (h.size'.symm ▸ hlt)]
  by_cases heq : other = frame
  · subst heq
    obtain rfl : marked' = marked := Option.some.inj (hother.symm.trans hframe)
    simp only [(ρ.key marked').injective.eq_iff]
    split
    · exact .some hv
    · exact h.lookup other marked' hother key
  · simp only [heq, false_and, if_false]
    exact h.lookup other marked' hother key

/-- A name of the head of a chain. -/
theorem define {marks : List Bool} {chain : Chain} (hchain : chain.Marked opened marks)
    (name : String) {v v' : Value} (hv : v.Renamed ρ opened v') :
    (store.define chain name v).Renamed ρ opened
      (store'.define chain (ρ.key (marks.headD false) name) v') := by
  cases hchain with
  | nil => exact h
  | cons hframe _ => exact h.bindIn hframe name hv

theorem defineAll {marks : List Bool} {chain : Chain}
    (hchain : chain.Marked opened (marked :: marks)) {bs bs' : List (String × Value)}
    (hbs : BindingsRenamed ρ opened marked bs bs') :
    (bs.foldl (fun store b => store.define chain b.1 b.2) store).Renamed ρ opened
      (bs'.foldl (fun store b => store.define chain b.1 b.2) store') := by
  unfold BindingsRenamed at hbs
  induction hbs generalizing store store' with
  | nil => exact h
  | @cons b b' _ _ hb _ ih =>
    rw [List.foldl_cons, List.foldl_cons, hb.1]
    exact ih (h.define hchain b.1 hb.2)

/-- A new frame, which is marked or not. -/
theorem openIn (chain : Chain) (marked : Bool) :
    (store'.openIn chain).1 = (store.openIn chain).1 ∧
      (store.openIn chain).2.Renamed ρ (opened ++ [marked]) (store'.openIn chain).2 := by
  refine ⟨congrArg (· :: chain) (h.size'.trans h.size.symm), by simp [Store.openIn, h.size],
    by simp [Store.openIn, h.size'], fun frame marked' hframe name => ?_⟩
  rw [lookup?_openIn, lookup?_openIn]
  rcases Nat.lt_or_ge frame opened.length with hlt | hle
  · rw [List.getElem?_append_left hlt] at hframe
    exact rel_mono (fun _ _ hv => hv.mono (List.prefix_append _ _)) (h.lookup frame _ hframe name)
  · have hnone : ∀ (s : Store Value) key, s.frames.size = opened.length →
        s.lookup? frame key = none := by
      intro s key hsize
      rw [Store.lookup?, Array.getElem?_eq_none (hsize ▸ hle)]
      rfl
    rw [hnone store _ h.size, hnone store' _ h.size']
    exact .none

theorem marked_openIn {marks : List Bool} {chain : Chain} (hchain : chain.Marked opened marks)
    (marked : Bool) :
    Chain.Marked (opened ++ [marked]) (store.openIn chain).1 (marked :: marks) := by
  refine .cons ?_ (hchain.mono (List.prefix_append _ _))
  rw [h.size]
  simp

/-- A variable some scopes out. -/
theorem getAt? {marks : List Bool} {chain : Chain} (hchain : chain.Marked opened marks)
    (distance : Nat) (name : String) :
    Option.Rel (Value.Renamed ρ opened) (store.getAt? chain distance name)
      (store'.getAt? chain distance (ρ.key (marks.getD distance false) name)) := by
  unfold Store.getAt?
  cases hframe : chain[distance]? with
  | none => exact .none
  | some frame => exact h.lookup frame _ (hchain.getElem? hframe) name

theorem homeAt? {marks : List Bool} {chain : Chain} (hchain : chain.Marked opened marks)
    (distance : Nat) (name : String) :
    Option.Rel (fun frame frame' => frame' = frame ∧
        opened[frame]? = some (marks.getD distance false))
      (store.homeAt? chain distance name)
      (store'.homeAt? chain distance (ρ.key (marks.getD distance false) name)) := by
  unfold Store.homeAt?
  cases hframe : chain[distance]? with
  | none => exact .none
  | some frame =>
    have hmarked := hchain.getElem? hframe
    simp only [Option.filter_some, isSome_of_rel (h.lookup frame _ hmarked name)]
    split
    · exact .some ⟨rfl, hmarked⟩
    · exact .none

/-- A variable of a frame that is not marked. -/
theorem get?_singleton {frame : FrameId} (hframe : opened[frame]? = some false) (name : String) :
    Option.Rel (Value.Renamed ρ opened) (store.get? [frame] name) (store'.get? [frame] name) := by
  have hvalue := h.lookup frame false hframe name
  rw [Renaming.key_false] at hvalue
  simp only [Store.get?, List.findSome?_cons, List.findSome?_nil]
  generalize store.lookup? frame name = value at hvalue ⊢
  generalize store'.lookup? frame name = value' at hvalue ⊢
  cases hvalue with
  | none => exact .none
  | some hv => exact .some hv

theorem home?_singleton {frame : FrameId} (hframe : opened[frame]? = some false) (name : String) :
    Option.Rel (fun frame frame' => frame' = frame ∧ opened[frame]? = some false)
      (store.home? [frame] name) (store'.home? [frame] name) := by
  have hbound := isSome_of_rel (h.lookup frame false hframe name)
  rw [Renaming.key_false] at hbound
  simp only [Store.home?, List.find?_singleton, hbound]
  split
  · exact .some ⟨rfl, hframe⟩
  · exact .none

end Store.Renamed

end

end Lox
