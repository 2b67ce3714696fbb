import Lox.Evaluate
import Lox.Proofs.Alike.Values

set_option autoImplicit false

/-! # Steps of alike machines

Each step of a machine does the same on two machines that are alike, and leaves them alike. -/

namespace Lox

variable {L : Likeness} {known known' : Distances} {α β : Type} {R : α → β → Prop}

/-! ## Frames -/

theorem Store.bindIn_of_le {store : Store Value} {frame : FrameId}
    (h : store.frames.size ≤ frame) (name : String) (v : Value) :
    store.bindIn frame name v = store := by
  have hframes : store.frames.modify frame (·.bind name v) = store.frames := by
    refine Array.ext (by simp) fun i hi hi' => ?_
    rw [Array.getElem_modify, if_neg (Nat.ne_of_gt (Nat.lt_of_lt_of_le hi' h))]
  rw [bindIn, hframes]

namespace Store.Alike

variable {store store' : Store Value} {v v' : Value}

theorem bindIn (h : store.Alike L store') (frame : FrameId) (name : String) (hv : v.Alike L v') :
    (store.bindIn frame name v).Alike L (store'.bindIn frame name v') := by
  rcases Nat.lt_or_ge frame store.frames.size with hframe | hframe
  · refine ⟨by simpa [Store.bindIn] using h.size, fun other key => ?_⟩
    rw [lookup?_bindIn _ _ _ _ _ _ hframe, lookup?_bindIn _ _ _ _ _ _ (h.size.symm ▸ hframe)]
    split
    · exact .some hv
    · exact h.lookup other key
  · rwa [Store.bindIn_of_le hframe, Store.bindIn_of_le (h.size.symm ▸ hframe)]

theorem define (h : store.Alike L store') (chain : Chain) (name : String) (hv : v.Alike L v') :
    (store.define chain name v).Alike L (store'.define chain name v') := by
  cases chain with
  | nil => exact h
  | cons frame _ => exact h.bindIn frame name hv

theorem openIn (h : store.Alike L store') (chain : Chain) :
    (store'.openIn chain).1 = (store.openIn chain).1 ∧
      (store.openIn chain).2.Alike L (store'.openIn chain).2 := by
  refine ⟨congrArg (· :: chain) h.size, by simpa [Store.openIn] using h.size, fun frame name => ?_⟩
  rw [lookup?_openIn, lookup?_openIn]
  exact h.lookup frame name

theorem isSome_lookup? (h : store.Alike L store') (frame : FrameId) (name : String) :
    (store'.lookup? frame name).isSome = (store.lookup? frame name).isSome :=
  isSome_of_rel (h.lookup frame name)

theorem home? (h : store.Alike L store') (chain : Chain) (name : String) :
    store'.home? chain name = store.home? chain name := by
  simp only [Store.home?, h.isSome_lookup?]

theorem homeAt? (h : store.Alike L store') (chain : Chain) (distance : Nat) (name : String) :
    store'.homeAt? chain distance name = store.homeAt? chain distance name := by
  simp only [Store.homeAt?, h.isSome_lookup?]

theorem get? (h : store.Alike L store') (chain : Chain) (name : String) :
    Option.Rel (Value.Alike L) (store.get? chain name) (store'.get? chain name) := by
  rw [get?_eq_bind_home?, get?_eq_bind_home?, h.home?]
  cases store.home? chain name with
  | none => exact .none
  | some frame => exact h.lookup frame name

theorem getAt? (h : store.Alike L store') (chain : Chain) (distance : Nat) (name : String) :
    Option.Rel (Value.Alike L) (store.getAt? chain distance name)
      (store'.getAt? chain distance name) := by
  unfold Store.getAt?
  cases chain[distance]? with
  | none => exact .none
  | some frame => exact h.lookup frame name

end Store.Alike

/-- Two lists of bindings with the same names and alike values. -/
def BindingsAlike (L : Likeness) (bs bs' : List (String × Value)) : Prop :=
  List.Forall₂ (fun b b' => b'.1 = b.1 ∧ b.2.Alike L b'.2) bs bs'

theorem bindingsAlike_one (name : String) {v v' : Value} (h : v.Alike L v') :
    BindingsAlike L [(name, v)] [(name, v')] :=
  .cons ⟨rfl, h⟩ .nil

theorem bindingsAlike_zip (names : List String) {vs vs' : List Value}
    (h : List.Forall₂ (Value.Alike L) vs vs') : BindingsAlike L (names.zip vs) (names.zip vs') := by
  induction h generalizing names with
  | nil =>
    rw [List.zip_nil_right]
    exact .nil
  | cons hv _ ih =>
    cases names with
    | nil => exact .nil
    | cons name names => exact .cons ⟨rfl, hv⟩ (ih names)

theorem Store.Alike.defineAll {store store' : Store Value} (h : store.Alike L store')
    (chain : Chain) {bs bs' : List (String × Value)} (hbs : BindingsAlike L bs bs') :
    (bs.foldl (fun store b => store.define chain b.1 b.2) store).Alike L
      (bs'.foldl (fun store b => store.define chain b.1 b.2) store') := by
  unfold BindingsAlike at hbs
  induction hbs generalizing store store' with
  | nil => exact h
  | @cons b b' _ _ hb _ ih =>
    rw [List.foldl_cons, List.foldl_cons, hb.1]
    exact ih (h.define chain b.1 hb.2)

/-- What can be seen of the fields after one was changed. -/
theorem fieldOf?_modify (objects : Array (Bindings Value)) (identity other : Nat)
    (name key : String) (v : Value) :
    fieldOf? (objects.modify identity (·.bind name v)) other key =
      if other = identity ∧ key = name ∧ identity < objects.size then some v
      else fieldOf? objects other key := by
  unfold fieldOf?
  rw [Array.getElem?_modify]
  by_cases hother : other = identity
  · subst hother
    rcases Nat.lt_or_ge other objects.size with hlt | hle
    · simp [hlt, Bindings.find?_bind]
    · simp [Nat.not_lt.2 hle]
  · simp [hother, Ne.symm hother]

namespace Machine.Alike

variable {m m' : Machine}

/-- Machines stay alike when their frames are changed alike. -/
theorem withStore (h : m.Alike L known known' m') {store store' : Store Value}
    (hs : store.Alike L store') :
    { m with store }.Alike L known known' { m' with store := store' } :=
  { h with store := hs }

theorem withDistances (h : m.Alike L known known' m') (distances distances' : Distances) :
    { m with distances }.Alike L distances distances' { m' with distances := distances' } :=
  { h with known := rfl, known' := rfl }

theorem inChain (h : m.Alike L known known' m') (chain : Chain) :
    { m with chain }.Alike L known known' { m' with chain } :=
  { h with chain := rfl }

theorem distances (h : m.Alike L known known' m') (hd : known.Alike L.ids known') :
    m.distances.Alike L.ids m'.distances := by
  rwa [h.known, h.known']

end Machine.Alike

/-! ## Stops -/

namespace Eval

section

variable {lines : Nat} {token : Token} (ht : L.moves lines token)

include ht

theorem raise_runs (problem : RuntimeProblem) :
    Runs L known known' R (raise token problem) (raise (token.down lines) problem) :=
  .throw (.error (.runtime problem ht))

theorem orUndefined_runs {a : Option α} {b : Option β} (h : Option.Rel R a b) :
    Runs L known known' R (orUndefined token a) (orUndefined (token.down lines) b) := by
  cases h with
  | none => exact raise_runs ht _
  | some h => exact .pure h

end

/-! ## Variables -/

theorem define_runs (name : String) {v v' : Value} (hv : v.Alike L v') :
    Runs L known known' (fun _ _ => True) (define name v) (define name v') := by
  intro m m' h
  refine .ok trivial (h.withStore ?_)
  rw [h.chain]
  exact h.store.define m.chain name hv

theorem bindIn_runs (frame : FrameId) (name : String) {v v' : Value} (hv : v.Alike L v') :
    Runs L known known' (fun _ _ => True) (bindIn frame name v) (bindIn frame name v') :=
  fun _ _ h => .ok trivial (h.withStore (h.store.bindIn frame name hv))

section

variable {lines : Nat} {name : Token} (ht : L.moves lines name)

include ht

theorem lookUp_runs (hd : known.Alike L.ids known') {id id' : RefId} (hid : L.ids id id') :
    Runs L known known' (Value.Alike L) (lookUp id name) (lookUp id' (name.down lines)) := by
  refine Matches.get_bind fun m m' h => orUndefined_runs ht ?_ m m' h
  rw [h.distances hd id id' hid, h.chain]
  cases m.distances.get? id with
  | none => exact h.store.get? globalChain name.lexeme
  | some distance => exact h.store.getAt? m.chain distance name.lexeme

theorem assign_runs (hd : known.Alike L.ids known') {id id' : RefId} (hid : L.ids id id')
    {v v' : Value} (hv : v.Alike L v') :
    Runs L known known' (fun _ _ => True) (assign id name v) (assign id' (name.down lines) v') := by
  refine Matches.get_bind fun m m' h => ((orUndefined_runs ht (R := Eq) ?_).bind
    fun frame _ hframe => hframe ▸ bindIn_runs frame name.lexeme hv) m m' h
  refine rel_eq_of_eq ?_
  simp only [h.distances hd id id' hid, h.chain, Token.down_lexeme, h.store.home?, h.store.homeAt?]

theorem assignInnermost_runs {v v' : Value} (hv : v.Alike L v') :
    Runs L known known' (fun _ _ => True) (assignInnermost name v)
      (assignInnermost (name.down lines) v') := by
  refine Matches.get_bind fun m m' h => ((orUndefined_runs ht (R := Eq) ?_).bind
    fun frame _ hframe => hframe ▸ bindIn_runs frame name.lexeme hv) m m' h
  refine rel_eq_of_eq ?_
  simp only [h.chain, Token.down_lexeme, h.store.home?]

end

/-! ## Scopes -/

theorem openScope_runs (outer : Chain) {bs bs' : List (String × Value)}
    (hbs : BindingsAlike L bs bs') :
    Runs L known known' Eq (openScope outer bs) (openScope outer bs') := by
  intro m m' h
  obtain ⟨hchain, hopen⟩ := h.store.openIn outer
  unfold openScope
  refine .ok hchain.symm (h.withStore ?_)
  show Store.Alike L
    (bs.foldl (fun store b => store.define (m.store.openIn outer).1 b.1 b.2)
      (m.store.openIn outer).2)
    (bs'.foldl (fun store b => store.define (m'.store.openIn outer).1 b.1 b.2)
      (m'.store.openIn outer).2)
  rw [hchain]
  exact hopen.defineAll _ hbs

theorem within_runs (chain : Chain) {x : Eval α} {y : Eval β} (h : Runs L known known' R x y) :
    Runs L known known' R (within chain x) (within chain y) := by
  intro m m' hm
  have h := h _ _ (hm.inChain chain)
  unfold within
  generalize x { m with chain } = r at h ⊢
  generalize y { m' with chain } = r' at h ⊢
  cases h with
  | ok ha hs => exact .ok ha (hm.chain ▸ hs.inChain _)
  | error he hs => exact .error he (hm.chain ▸ hs.inChain _)

/-! ## Functions, classes and objects -/

theorem freshIdentity_runs : Runs L known known' Eq freshIdentity freshIdentity :=
  fun _ _ h => .ok h.nextIdentity.symm { h with nextIdentity := congrArg (· + 1) h.nextIdentity }

theorem close_runs {f f' : FunctionDef} (hf : f.Like L f') :
    Runs L known known' (Value.Alike L) (close f) (close f') := by
  refine freshIdentity_runs.bind fun identity _ hi => Matches.get_bind fun m m' h => ?_
  subst hi
  exact .ok (.function ⟨rfl, hf, h.chain, rfl⟩) h

theorem bindMethod_runs {f f' : Method} (hf : f.Alike L f') {v v' : Value} (hv : v.Alike L v') :
    Runs L known known' (Closure.Alike L) (bindMethod f v) (bindMethod f' v') := by
  unfold bindMethod
  rw [hf.chain]
  refine (openScope_runs f.chain (bindingsAlike_one "this" hv)).bind fun chain _ hchain => ?_
  subst hchain
  refine freshIdentity_runs.bind fun identity _ hi => .pure ?_
  subst hi
  obtain ⟨lines, hd⟩ := hf.definition
  exact ⟨rfl, hf.definition, rfl, hd.isInitializer⟩

theorem newObject_runs {c c' : Class} (hc : c.Alike L c') :
    Runs L known known' (Value.Alike L) (newObject c) (newObject c') := by
  intro m m' h
  unfold newObject
  refine .ok ?_ { h with objects := by simp [h.objects], fields := fun identity name => ?_ }
  · rw [h.objects]
    exact .object _ hc
  · have hfields := h.fields identity name
    unfold fieldOf? at hfields ⊢
    rw [Array.getElem?_push, Array.getElem?_push, h.objects]
    split
    · exact .none
    · exact hfields

theorem getProperty_runs (identity : Nat) {c c' : Class} (hc : c.Alike L c') {lines : Nat}
    {name : Token} (ht : L.moves lines name) :
    Runs L known known' (Value.Alike L) (getProperty identity c name)
      (getProperty identity c' (name.down lines)) := by
  refine Matches.get_bind fun m m' h => ?_
  have hfield := h.fields identity name.lexeme
  unfold fieldOf? at hfield
  rw [Token.down_lexeme]
  generalize m.objects[identity]?.bind (·.find? name.lexeme) = field at hfield ⊢
  generalize m'.objects[identity]?.bind (·.find? name.lexeme) = field' at hfield ⊢
  cases hfield with
  | some hv => exact .ok hv h
  | none =>
    have hmethod := hc.method? name.lexeme
    dsimp only
    generalize c.method? name.lexeme = method at hmethod ⊢
    generalize c'.method? name.lexeme = method' at hmethod ⊢
    cases hmethod with
    | none => exact raise_runs ht _ m m' h
    | some hm =>
      exact ((bindMethod_runs hm (.object identity hc)).bind fun f f' hf =>
        .pure (.function hf)) m m' h

theorem setField_runs (identity : Nat) (name : String) {v v' : Value} (hv : v.Alike L v') :
    Runs L known known' (fun _ _ => True) (setField identity name v)
      (setField identity name v') := by
  intro m m' h
  unfold setField
  refine .ok trivial { h with objects := by simp [h.objects], fields := fun other key => ?_ }
  rw [fieldOf?_modify, fieldOf?_modify, h.objects]
  split
  · exact .some hv
  · exact h.fields other key

/-! ## Output and clock -/

theorem write_runs (chunk : String) :
    Runs L known known' (fun _ _ => True) (write chunk) (write chunk) := by
  refine Matches.get_bind fun m m' h => ?_
  rw [h.output]
  split
  · exact .ok trivial { h with output := congrArg (·.append chunk) h.output }
  · exact .error (.error (.output .full)) h

theorem printLine_runs (text : String) :
    Runs L known known' (fun _ _ => True) (printLine text) (printLine text) :=
  (write_runs text).bind fun _ _ _ => write_runs "\n"

theorem flush_runs : Runs L known known' (fun _ _ => True) flush flush := by
  refine Matches.get_bind fun m m' h => ?_
  rw [h.output]
  split
  · exact .error (.error (.output .notFlushed)) h
  · exact .ok trivial h

theorem readClock_runs : Runs L known known' (Value.Alike L) readClock readClock := by
  intro m m' h
  unfold readClock
  refine .ok ?_ { h with clock := by rw [h.clock] }
  rw [h.clock]
  exact .number _

end Eval

end Lox
