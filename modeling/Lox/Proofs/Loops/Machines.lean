import Lox.Proofs.Alike.Machines
import Lox.Proofs.Loops.Values
import Lox.Proofs.Run.Binding

set_option autoImplicit false

/-! # Steps of machines without idle frames

A step follows another one (`Tables.Follows`) if on machines that are the same but for idle frames
both end in the same way, with results that are the same but for idle frames, and leave such machines
behind, each in the chain it was in. In between further frames may have been opened. Each step of a
program follows itself; the one that opens an idle scope, for a step in it, follows that step without
the scope (`Follows.idle`). -/

namespace Lox

/-- A machine, in a chain of frames, and the same machine without the idle frames. -/
structure Machine.Thins (T : Tables) (opened : List Bool) (chain chain' : Chain) (m m' : Machine) :
    Prop where
  store : m.store.Thins T opened m'.store
  global : IsKept opened 0
  objects : m'.objects.size = m.objects.size
  fields : ∀ identity name,
    Option.Rel (Value.Thins T opened) (fieldOf? m.objects identity name)
      (fieldOf? m'.objects identity name)
  nextIdentity : m'.nextIdentity = m.nextIdentity
  chain : m.chain = chain
  chain' : m'.chain = chain'
  nested : m.distances = T.nested
  direct : m'.distances = T.direct
  output : m'.output = m.output
  clock : m'.clock = m.clock

/-- A machine of which a further frame was opened. -/
theorem Machine.Thins.opening {T : Tables} {opened : List Bool} {chain chain' : Chain} {idle : Bool}
    {m m' : Machine} (h : m.Thins T opened chain chain' m') {store store' : Store Value}
    (hstore : store.Thins T (opened ++ [idle]) store') :
    Machine.Thins T (opened ++ [idle]) chain chain' { m with store } { m' with store := store' } := by
  have hle : opened <+: opened ++ [idle] := List.prefix_append _ _
  have hvalue : ∀ v v', Value.Thins T opened v v' → Value.Thins T (opened ++ [idle]) v v' :=
    fun _ _ hv => hv.further hle
  exact { h with
    store := hstore
    global := h.global.mono hle
    fields := fun identity name => rel_mono hvalue (h.fields identity name) }

namespace Tables

section

variable (T : Tables) (opened : List Bool) (chain chain' : Chain) {α β : Type}
  (R : List Bool → α → β → Prop)

/-- Two ends of the same kind. What is said of the results is said for the frames opened by then. -/
inductive Ends : EStateM.Result Stop Machine α → EStateM.Result Stop Machine β → Prop
  | ok {opened' : List Bool} {a : α} {b : β} {m m' : Machine} : opened <+: opened' →
      R opened' a b → m.Thins T opened' chain chain' m' → Ends (.ok a m) (.ok b m')
  | error {opened' : List Bool} {stop : Stop} {m m' : Machine} : opened <+: opened' →
      m.Thins T opened' chain chain' m' → Ends (.error stop m) (.error stop m')

/-- A step that does the same as another one, but for idle frames. -/
def Follows (x : Eval α) (y : Eval β) : Prop :=
  ∀ m m', m.Thins T opened chain chain' m' → T.Ends opened chain chain' R (x m) (y m')

end

variable {T : Tables} {opened : List Bool} {chain chain' : Chain} {α α' β β' : Type}
  {R : List Bool → α → α' → Prop} {Q : List Bool → β → β' → Prop}

/-- What is said of some frames stays true when further ones are opened. -/
theorem Ends.mono {opened' : List Bool} (hle : opened <+: opened')
    {r : EStateM.Result Stop Machine α} {r' : EStateM.Result Stop Machine α'}
    (h : T.Ends opened' chain chain' R r r') : T.Ends opened chain chain' R r r' := by
  cases h with
  | ok hle' ha hm => exact .ok (hle.trans hle') ha hm
  | error hle' hm => exact .error (hle.trans hle') hm

/-! ## Steps put together -/

/-- What comes behind a step may rely on how the step has changed the machine. -/
theorem Ends.bind {x : Eval α} {y : Eval α'} {k : α → Eval β} {k' : α' → Eval β'} {m m' : Machine}
    (h : T.Ends opened chain chain' R (x m) (y m'))
    (hk : ∀ opened', opened <+: opened' → ∀ a a' m₁ m₁', x m = .ok a m₁ → R opened' a a' →
      m₁.Thins T opened' chain chain' m₁' →
        T.Ends opened' chain chain' Q (k a m₁) (k' a' m₁')) :
    T.Ends opened chain chain' Q ((x >>= k) m) ((y >>= k') m') := by
  simp only [Bind.bind, EStateM.bind]
  generalize x m = r at h hk ⊢
  generalize y m' = r' at h ⊢
  cases h with
  | ok hle ha hm => exact (hk _ hle _ _ _ _ rfl ha hm).mono hle
  | error hle hm => exact .error hle hm

namespace Follows

variable {x : Eval α} {y : Eval α'}

theorem pure {a : α} {a' : α'} (h : R opened a a') :
    T.Follows opened chain chain' R (Pure.pure a) (Pure.pure a') :=
  fun _ _ hm => .ok (List.prefix_refl _) h hm

theorem throw (stop : Stop) :
    T.Follows opened chain chain' R (MonadExcept.throw stop) (MonadExcept.throw stop) :=
  fun _ _ hm => .error (List.prefix_refl _) hm

theorem bind {k : α → Eval β} {k' : α' → Eval β'} (h : T.Follows opened chain chain' R x y)
    (hk : ∀ opened', opened <+: opened' → ∀ a a', R opened' a a' →
      T.Follows opened' chain chain' Q (k a) (k' a')) :
    T.Follows opened chain chain' Q (x >>= k) (y >>= k') :=
  fun m m' hm => (h m m' hm).bind fun _ hle _ _ _ _ _ ha hm => hk _ hle _ _ ha _ _ hm

/-- Steps that look at the machine first. -/
theorem get_bind {k : Machine → Eval α} {k' : Machine → Eval α'}
    (h : ∀ m m', m.Thins T opened chain chain' m' →
      T.Ends opened chain chain' R (k m m) (k' m' m')) :
    T.Follows opened chain chain' R (get >>= k) (get >>= k') :=
  h

theorem mapM {γ : Type} {f f' : γ → Eval α} {R : List Bool → α → α → Prop}
    (hR : ∀ opened opened' a a', opened <+: opened' → R opened a a' → R opened' a a') {cs : List γ}
    (hf : ∀ c ∈ cs, ∀ opened', opened <+: opened' →
      T.Follows opened' chain chain' R (f c) (f' c)) :
    T.Follows opened chain chain' (fun opened => List.Forall₂ (R opened)) (cs.mapM f)
      (cs.mapM f') := by
  induction cs generalizing opened with
  | nil => exact .pure .nil
  | cons c cs ih =>
    rw [List.forall_mem_cons] at hf
    rw [List.mapM_cons, List.mapM_cons]
    refine (hf.1 opened (List.prefix_refl _)).bind fun opened₁ hle a a' ha => ?_
    refine (ih fun c hc opened₂ hle' => hf.2 c hc opened₂ (hle.trans hle')).bind
      fun _ hle as as' has => ?_
    exact .pure (.cons (hR _ _ a a' hle ha) has)

end Follows

/-! ## Stops -/

open Eval

theorem raise_follows (token : Token) (problem : RuntimeProblem) :
    T.Follows opened chain chain' R (raise token problem) (raise token problem) := .throw _

theorem orUndefined_follows (name : Token) {a : Option α} {a' : Option α'}
    (h : Option.Rel (R opened) a a') :
    T.Follows opened chain chain' R (orUndefined name a) (orUndefined name a') := by
  cases h with
  | none => exact raise_follows _ _
  | some h => exact .pure h

/-! ## Variables -/

section

variable {scopes : Scopes} (hchain : chain.Thins opened chain' scopes.marks)

include hchain

theorem lookUp_follows {r : Reference} (hr : T.Knows ⟨r, scopes⟩) :
    T.Follows opened chain chain' (Value.Thins T) (lookUp r.id r.token) (lookUp r.id r.token) := by
  refine .get_bind fun m m' h => orUndefined_follows _ ?_ m m' h
  have hagrees := hr.agrees
  rw [h.nested, h.direct, h.chain, h.chain']
  dsimp only at hagrees
  -- the two distances differ by the idle frames on the way
  generalize T.nested.get? r.id = distance, T.direct.get? r.id = distance' at hagrees
  cases hagrees with
  | global => exact h.store.get?_global h.global r.token.lexeme
  | scope hs hidle _ =>
    obtain ⟨hmark, hcount⟩ := Scopes.marks_of_getElem? hs hidle
    rw [← hcount]
    exact h.store.getAt? hchain hmark r.token.lexeme

theorem assign_follows {r : Reference} (hr : T.Knows ⟨r, scopes⟩) {v v' : Value}
    (hv : v.Thins T opened v') :
    T.Follows opened chain chain' (fun _ _ _ => True) (assign r.id r.token v)
      (assign r.id r.token v') := by
  refine .get_bind fun m m' h => ((orUndefined_follows _ (R := fun opened frame frame' =>
    IsKept opened frame ∧ frame' = place opened frame) ?_).bind
      fun opened' hle frame frame' hframe => ?_) m m' h
  · have hagrees := hr.agrees
    rw [h.nested, h.direct, h.chain, h.chain']
    dsimp only at hagrees
    generalize T.nested.get? r.id = distance, T.direct.get? r.id = distance' at hagrees
    cases hagrees with
    | global => exact h.store.home?_global h.global r.token.lexeme
    | scope hs hidle _ =>
      obtain ⟨hmark, hcount⟩ := Scopes.marks_of_getElem? hs hidle
      rw [← hcount]
      exact h.store.homeAt? hchain hmark r.token.lexeme
  · obtain ⟨hkept, rfl⟩ := hframe
    intro m₁ m₁' hm
    exact .ok (List.prefix_refl _) trivial
      { hm with store := hm.store.bindIn hkept r.token.lexeme (hv.further hle) }

end

section

variable {marks : List Bool} (hchain : chain.Thins opened chain' (false :: marks))

include hchain

theorem define_follows (name : String) {v v' : Value} (hv : v.Thins T opened v') :
    T.Follows opened chain chain' (fun _ _ _ => True) (define name v) (define name v') := by
  intro m m' h
  refine .ok (List.prefix_refl _) trivial { h with store := ?_ }
  show Store.Thins T opened (m.store.define m.chain name v) (m'.store.define m'.chain name v')
  rw [h.chain, h.chain']
  exact h.store.define hchain name hv

/-- A name that the innermost scope binds is changed there. -/
theorem assignInnermost_follows {name : Token} {v v' : Value} (hv : v.Thins T opened v')
    {m m' : Machine} (h : m.Thins T opened chain chain' m') (hbound : m.Binds name.lexeme) :
    T.Ends opened chain chain' (fun _ _ _ => True) (assignInnermost name v m)
      (assignInnermost name v' m') := by
  have hdefine := define_follows hchain name.lexeme hv m m' h
  cases hchain with
  | @kept frame outer outer' _ hkept _ =>
    have hbound := hbound frame outer h.chain
    have hbound' : (m'.store.lookup? (place opened frame) name.lexeme).isSome := by
      rwa [isSome_of_rel (h.store.lookup frame hkept name.lexeme)]
    rw [assignInnermost_eq_define h.chain hbound, assignInnermost_eq_define h.chain' hbound']
    exact hdefine

theorem binds_of_define {name : String} {v : Value} {m m' m₁ : Machine}
    (h : m.Thins T opened chain chain' m') (hdefine : define name v m = .ok () m₁) :
    m₁.Binds name := by
  refine Lox.binds_of_define (fun frame outer hm => ?_) hdefine
  rw [h.chain] at hm
  subst hm
  cases hchain with | kept hkept _ => exact h.store.size ▸ hkept.lt

end

/-! ## Scopes -/

/-- A new scope that is kept. -/
theorem openScope_follows {outer outer' : Chain} {marks : List Bool}
    (houter : outer.Thins opened outer' marks) (names : List String) {vs vs' : List Value}
    (hvs : List.Forall₂ (Value.Thins T opened) vs vs') :
    T.Follows opened chain chain'
      (fun opened chain chain' => chain.Thins opened chain' (false :: marks))
      (openScope outer (names.zip vs)) (openScope outer' (names.zip vs')) := by
  intro m m' h
  have hle : opened <+: opened ++ [false] := List.prefix_append _ _
  have hchain : Chain.Thins (opened ++ [false]) (m.store.openIn outer).1 (m'.store.openIn outer').1
      (false :: marks) := by
    have hkept := Chain.Thins.kept (isKept_append opened) (houter.mono hle)
    rwa [place_append, ← h.store.size, ← h.store.size'] at hkept
  refine .ok hle hchain (h.opening ?_)
  exact (h.store.openIn outer outer').defineAll hchain
    (List.Forall₂.imp (fun _ _ hv => hv.further hle) hvs)

theorem within_follows {inner inner' : Chain} {x : Eval α} {y : Eval α'}
    (h : T.Follows opened inner inner' R x y) :
    T.Follows opened chain chain' R (within inner x) (within inner' y) := by
  intro m m' hm
  have h := h { m with chain := inner } { m' with chain := inner' }
    { hm with chain := rfl, chain' := rfl }
  unfold within
  generalize x { m with chain := inner } = r at h ⊢
  generalize y { m' with chain := inner' } = r' at h ⊢
  cases h with
  | ok hle ha hs => exact .ok hle ha { hs with chain := hm.chain, chain' := hm.chain' }
  | error hle hs => exact .error hle { hs with chain := hm.chain, chain' := hm.chain' }

/-- A new scope that is idle. The machine without the idle frames stays as it is. -/
theorem openScope_idle {marks : List Bool} {m m' : Machine}
    (h : m.Thins T opened chain chain' m') (hchain : chain.Thins opened chain' marks) :
    ∃ inner m₁, openScope m.chain [] m = .ok inner m₁ ∧
      m₁.Thins T (opened ++ [true]) chain chain' m' ∧
      inner.Thins (opened ++ [true]) chain' (true :: marks) := by
  have hidle : (opened ++ [true])[m.store.frames.size]? = some true := by
    rw [h.store.size]
    simp
  refine ⟨m.store.frames.size :: m.chain, _, rfl, h.opening (h.store.openIdle m.chain), ?_⟩
  rw [h.chain]
  exact .idle hidle (hchain.mono (List.prefix_append _ _))

/-- **An idle scope is not seen.** A step in one follows the same step without the scope. -/
theorem Follows.idle {marks : List Bool} (hchain : chain.Thins opened chain' marks) {x : Eval α}
    {y : Eval α'}
    (h : ∀ opened', opened <+: opened' → ∀ inner : Chain,
      inner.Thins opened' chain' (true :: marks) → T.Follows opened' inner chain' R x y) :
    T.Follows opened chain chain' R
      (do
        let inner ← openScope (← get).chain []
        within inner x) y := by
  intro m m' hm
  have hle : opened <+: opened ++ [true] := List.prefix_append _ _
  obtain ⟨inner, m₁, hopen, hm₁, hinner⟩ := openScope_idle hm hchain
  have hx := h _ hle inner hinner { m₁ with chain := inner } m' { hm₁ with chain := rfl }
  rw [Eval.get_bind]
  simp only [Bind.bind, EStateM.bind, hopen]
  unfold within
  generalize x { m₁ with chain := inner } = r at hx ⊢
  generalize y m' = r' at hx ⊢
  cases hx with
  | ok hle' ha hs => exact .ok (hle.trans hle') ha { hs with chain := hm₁.chain }
  | error hle' hs => exact .error (hle.trans hle') { hs with chain := hm₁.chain }

/-! ## Functions, classes and objects -/

theorem freshIdentity_follows :
    T.Follows opened chain chain' (fun _ => Eq) freshIdentity freshIdentity :=
  fun _ _ h => .ok (List.prefix_refl _) h.nextIdentity.symm
    { h with nextIdentity := congrArg (· + 1) h.nextIdentity }

theorem close_follows {scopes : Scopes} (hchain : chain.Thins opened chain' scopes.marks)
    {f : FunctionDef} (hf : f.Checked T.Knows scopes) :
    T.Follows opened chain chain' (Value.Thins T) (close f) (close f) := by
  refine freshIdentity_follows.bind fun opened' hle identity _ hi => .get_bind fun m m' h => ?_
  subst hi
  rw [h.chain, h.chain']
  exact .ok (List.prefix_refl _) (.function ⟨rfl, scopes, hchain.mono hle, hf, nofun⟩) h

theorem bindMethod_follows {f f' : Method} (hf : f.Thins T opened f') {v v' : Value}
    (hv : v.Thins T opened v') :
    T.Follows opened chain chain' (fun opened => Closure.Thins T opened) (bindMethod f v)
      (bindMethod f' v') := by
  obtain ⟨hsame, scopes, hchain, hchecked⟩ := hf
  unfold bindMethod
  rw [show f'.definition = f.definition by rw [hsame]]
  refine (openScope_follows hchain ["this"] (.cons hv .nil)).bind fun _ _ inner inner' hinner => ?_
  refine freshIdentity_follows.bind fun _ hle identity _ hi => .pure ?_
  subst hi
  exact ⟨rfl, f.definition.receiver :: scopes, hinner.mono hle, hchecked, fun _ => rfl⟩

theorem getProperty_follows (identity : Nat) {c c' : Class}
    (hc : c.Under (T.correspondence opened) c') (name : Token) :
    T.Follows opened chain chain' (Value.Thins T) (getProperty identity c name)
      (getProperty identity c' name) := by
  refine .get_bind fun m m' h => ?_
  have hfield := h.fields identity name.lexeme
  unfold fieldOf? at hfield
  generalize m.objects[identity]?.bind (·.find? name.lexeme) = field at hfield ⊢
  generalize m'.objects[identity]?.bind (·.find? name.lexeme) = field' at hfield ⊢
  cases hfield with
  | some hv => exact .ok (List.prefix_refl _) hv h
  | none =>
    have hmethod := hc.method? name.lexeme
    dsimp only
    generalize c.method? name.lexeme = method at hmethod ⊢
    generalize c'.method? name.lexeme = method' at hmethod ⊢
    cases hmethod with
    | none => exact raise_follows name _ m m' h
    | some hm =>
      exact ((bindMethod_follows hm (.object identity hc)).bind fun _ _ f f' hf =>
        .pure (.function hf)) m m' h

theorem newObject_follows {c c' : Class} (hc : c.Under (T.correspondence opened) c') :
    T.Follows opened chain chain' (Value.Thins T) (newObject c) (newObject c') := by
  intro m m' h
  unfold newObject
  refine .ok (List.prefix_refl _) ?_
    { h with objects := by simp [h.objects], fields := fun identity name => ?_ }
  · rw [h.objects]
    exact .object _ hc
  · have hfields := h.fields identity name
    unfold fieldOf? at hfields ⊢
    rw [Array.getElem?_push, Array.getElem?_push, h.objects]
    split
    · exact .none
    · exact hfields

theorem setField_follows (identity : Nat) (name : String) {v v' : Value}
    (hv : v.Thins T opened v') :
    T.Follows opened chain chain' (fun _ _ _ => True) (setField identity name v)
      (setField identity name v') := by
  intro m m' h
  unfold setField
  refine .ok (List.prefix_refl _) trivial
    { h with objects := by simp [h.objects], fields := fun other key => ?_ }
  rw [fieldOf?_modify, fieldOf?_modify, h.objects]
  split
  · exact .some hv
  · exact h.fields other key

/-! ## Output and clock -/

theorem write_follows (chunk : String) :
    T.Follows opened chain chain' (fun _ _ _ => True) (write chunk) (write chunk) := by
  refine .get_bind fun m m' h => ?_
  rw [h.output]
  split
  · exact .ok (List.prefix_refl _) trivial
      { h with output := congrArg (·.append chunk) h.output }
  · exact .error (List.prefix_refl _) h

theorem printLine_follows (text : String) :
    T.Follows opened chain chain' (fun _ _ _ => True) (printLine text) (printLine text) :=
  (write_follows text).bind fun _ _ _ _ _ => write_follows "\n"

theorem flush_follows : T.Follows opened chain chain' (fun _ _ _ => True) flush flush := by
  refine .get_bind fun m m' h => ?_
  rw [h.output]
  split
  · exact .error (List.prefix_refl _) h
  · exact .ok (List.prefix_refl _) trivial h

theorem readClock_follows :
    T.Follows opened chain chain' (Value.Thins T) readClock readClock := by
  intro m m' h
  unfold readClock
  refine .ok (List.prefix_refl _) ?_ { h with clock := by rw [h.clock] }
  rw [h.clock]
  exact .number _

end Tables

end Lox
