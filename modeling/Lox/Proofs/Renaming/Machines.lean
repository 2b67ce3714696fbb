import Lox.Proofs.Alike.Machines
import Lox.Proofs.Renaming.Values
import Lox.Proofs.Run.Binding

set_option autoImplicit false

/-! # Steps of machines in which a variable has another name

A step follows another one (`Renaming.Follows`) if on machines that are the same but for the name of
the variable both end in the same way, with results that are the same but for that name, and leave
such machines behind. In between further frames may have been opened. -/

namespace Lox

/-- Two machines that are the same but for the name of a variable. The marks are those of the scopes
    that the machines are in. -/
structure Machine.Renamed (ρ : Renaming) (opened marks : List Bool) (m m' : Machine) : Prop where
  store : m.store.Renamed ρ opened m'.store
  global : opened[0]? = some false
  objects : m'.objects.size = m.objects.size
  fields : ∀ identity name,
    Option.Rel (Value.Renamed ρ opened) (fieldOf? m.objects identity name)
      (fieldOf? m'.objects identity name)
  nextIdentity : m'.nextIdentity = m.nextIdentity
  chain : m'.chain = m.chain
  marked : m.chain.Marked opened marks
  known : ∀ id, m.distances.get? id = ρ.distances.get? id
  known' : ∀ id, m'.distances.get? id = ρ.distances.get? id
  output : m'.output = m.output
  clock : m'.clock = m.clock

/-- The frames of the scopes that a machine is in have been opened. -/
theorem Machine.Renamed.opened_of_chain {ρ : Renaming} {opened marks : List Bool} {m m' : Machine}
    (h : m.Renamed ρ opened marks m') {frame : FrameId} {outer : Chain}
    (hchain : m.chain = frame :: outer) : frame < m.store.frames.size := by
  have hmarked := h.marked
  rw [hchain] at hmarked
  cases hmarked with
  | cons hframe _ => exact h.store.size ▸ (List.getElem?_eq_some_iff.1 hframe).1

/-- Two stops for the same reason. -/
inductive Stop.Renamed (ρ : Renaming) : Stop → Stop → Prop
  | error (ours : Bool) (e : Error) : Stop.Renamed ρ (.error e) (.error (ρ.cited ours e))
  | impossible : Stop.Renamed ρ .impossible .impossible
  | outOfFuel : Stop.Renamed ρ .outOfFuel .outOfFuel

namespace Renaming

section

variable (ρ : Renaming) (opened marks : List Bool) {α β : Type} (R : List Bool → α → β → Prop)

/-- Two ends of the same kind. What is said of the results is said for the frames opened by then. -/
inductive Ends : EStateM.Result Stop Machine α → EStateM.Result Stop Machine β → Prop
  | ok {opened' : List Bool} {a : α} {b : β} {m m' : Machine} : opened <+: opened' →
      R opened' a b → m.Renamed ρ opened' marks m' → Ends (.ok a m) (.ok b m')
  | error {opened' : List Bool} {stop stop' : Stop} {m m' : Machine} : opened <+: opened' →
      stop.Renamed ρ stop' → m.Renamed ρ opened' marks m' → Ends (.error stop m) (.error stop' m')

/-- A step that does the same as another one, but for the name of the variable. -/
def Follows (x : Eval α) (y : Eval β) : Prop :=
  ∀ m m', m.Renamed ρ opened marks m' → ρ.Ends opened marks R (x m) (y m')

end

variable {ρ : Renaming} {opened marks : List Bool} {α α' β β' : Type}
  {R : List Bool → α → α' → Prop} {Q : List Bool → β → β' → Prop}

/-- What is said of some frames stays true when further ones are opened. -/
theorem Ends.mono {opened' : List Bool} (hle : opened <+: opened')
    {r : EStateM.Result Stop Machine α} {r' : EStateM.Result Stop Machine α'}
    (h : ρ.Ends opened' marks R r r') : ρ.Ends opened marks R r r' := by
  cases h with
  | ok hle' ha hm => exact .ok (hle.trans hle') ha hm
  | error hle' he hm => exact .error (hle.trans hle') he hm

/-! ## Steps put together -/

/-- What comes behind a step may rely on how the step has changed the machine. -/
theorem Ends.bind {x : Eval α} {y : Eval α'} {k : α → Eval β} {k' : α' → Eval β'} {m m' : Machine}
    (h : ρ.Ends opened marks R (x m) (y m'))
    (hk : ∀ opened', opened <+: opened' → ∀ a a' m₁ m₁', x m = .ok a m₁ → R opened' a a' →
      m₁.Renamed ρ opened' marks m₁' → ρ.Ends opened' marks Q (k a m₁) (k' a' m₁')) :
    ρ.Ends opened marks Q ((x >>= k) m) ((y >>= k') m') := by
  simp only [Bind.bind, EStateM.bind]
  generalize x m = r at h hk ⊢
  generalize y m' = r' at h ⊢
  cases h with
  | ok hle ha hm => exact (hk _ hle _ _ _ _ rfl ha hm).mono hle
  | error hle he hm => exact .error hle he hm

namespace Follows

variable {x : Eval α} {y : Eval α'}

theorem pure {a : α} {a' : α'} (h : R opened a a') :
    ρ.Follows opened marks R (Pure.pure a) (Pure.pure a') :=
  fun _ _ hm => .ok (List.prefix_refl _) h hm

theorem throw {stop stop' : Stop} (h : stop.Renamed ρ stop') :
    ρ.Follows opened marks R (throw stop) (throw stop') :=
  fun _ _ hm => .error (List.prefix_refl _) h hm

theorem bind {k : α → Eval β} {k' : α' → Eval β'} (h : ρ.Follows opened marks R x y)
    (hk : ∀ opened', opened <+: opened' → ∀ a a', R opened' a a' →
      ρ.Follows opened' marks Q (k a) (k' a')) :
    ρ.Follows opened marks Q (x >>= k) (y >>= k') :=
  fun m m' hm => (h m m' hm).bind fun _ hle _ _ _ _ _ ha hm => hk _ hle _ _ ha _ _ hm

/-- Steps that look at the machine first. -/
theorem get_bind {k : Machine → Eval α} {k' : Machine → Eval α'}
    (h : ∀ m m', m.Renamed ρ opened marks m' → ρ.Ends opened marks R (k m m) (k' m' m')) :
    ρ.Follows opened marks R (get >>= k) (get >>= k') :=
  h

theorem mapM {γ γ' : Type} {P : γ → γ' → Prop} {f : γ → Eval α} {f' : γ' → Eval α'}
    (hR : ∀ opened opened' a a', opened <+: opened' → R opened a a' → R opened' a a')
    (hf : ∀ opened c c', P c c' → ρ.Follows opened marks R (f c) (f' c')) {cs : List γ}
    {cs' : List γ'} (hcs : List.Forall₂ P cs cs') :
    ρ.Follows opened marks (fun opened => List.Forall₂ (R opened)) (cs.mapM f) (cs'.mapM f') := by
  induction hcs generalizing opened with
  | nil => exact .pure .nil
  | cons hc _ ih =>
    rw [List.mapM_cons, List.mapM_cons]
    refine (hf opened _ _ hc).bind fun _ _ a a' ha => ?_
    refine ih.bind fun _ hle as as' has => ?_
    exact .pure (.cons (hR _ _ a a' hle ha) has)

end Follows

/-! ## Stops -/

open Eval

theorem raise_follows (ours : Bool) (token : Token) (problem : RuntimeProblem) :
    ρ.Follows opened marks R (raise token problem)
      (raise (ρ.respell ours token) (ρ.problem ours problem)) :=
  .throw (.error ours (.runtime token problem))

/-- A problem at a token that stands for no variable. -/
theorem raise_same (token : Token) (problem : RuntimeProblem) :
    ρ.Follows opened marks R (raise token problem) (raise token problem) := by
  have hraise : ρ.Follows opened marks R (raise token problem)
      (raise token (ρ.problem false problem)) := raise_follows false token problem
  cases problem <;> exact hraise

theorem orUndefined_follows (ours : Bool) {token : Token} {a : Option α} {a' : Option α'}
    (h : Option.Rel (R opened) a a') :
    ρ.Follows opened marks R (orUndefined token a) (orUndefined (ρ.respell ours token) a') := by
  cases h with
  | none =>
    have hname : ρ.problem ours (.undefinedVariable token.lexeme) =
        .undefinedVariable (ρ.respell ours token).lexeme := by
      rw [problem, respell]
      split <;> rfl
    show ρ.Follows opened marks R _ (raise _ (.undefinedVariable (ρ.respell ours token).lexeme))
    rw [← hname]
    exact raise_follows ours token _
  | some h => exact .pure h

/-- What is not renamed is not renamed where it is undefined either. -/
theorem orUndefined_same {token : Token} {a : Option α} {a' : Option α'}
    (h : Option.Rel (R opened) a a') :
    ρ.Follows opened marks R (orUndefined token a) (orUndefined token a') :=
  orUndefined_follows false h

/-! ## Variables -/

theorem define_follows (name : String) {v v' : Value} (hv : v.Renamed ρ opened v') :
    ρ.Follows opened marks (fun _ _ _ => True) (define name v)
      (define (ρ.key (marks.headD false) name) v') := by
  intro m m' h
  refine .ok (List.prefix_refl _) trivial { h with store := ?_ }
  show Store.Renamed ρ opened (m.store.define m.chain name v) (m'.store.define m'.chain _ v')
  rw [h.chain]
  exact h.store.define h.marked name hv

theorem define_same {name : String} (hname : ρ.Other (marks.headD false) name) {v v' : Value}
    (hv : v.Renamed ρ opened v') :
    ρ.Follows opened marks (fun _ _ _ => True) (define name v) (define name v') := by
  have hdefine : ρ.Follows opened marks (fun _ _ _ => True) (define name v)
      (define (ρ.key (marks.headD false) name) v') := define_follows name hv
  rwa [hname.key] at hdefine

theorem define_respelled {name : Token} (hname : ρ.Apart (marks.headD false) name.lexeme)
    {v v' : Value} (hv : v.Renamed ρ opened v') :
    ρ.Follows opened marks (fun _ _ _ => True) (define name.lexeme v)
      (define (ρ.respell (marks.headD false) name).lexeme v') := by
  rw [respell_lexeme hname]
  exact define_follows name.lexeme hv

theorem bindIn_follows {frame : FrameId} {marked : Bool} (hframe : opened[frame]? = some marked)
    (name : String) {v v' : Value} (hv : v.Renamed ρ opened v') :
    ρ.Follows opened marks (fun _ _ _ => True) (bindIn frame name v)
      (bindIn frame (ρ.key marked name) v') :=
  fun _ _ h => .ok (List.prefix_refl _) trivial { h with store := h.store.bindIn hframe name hv }

/-- A reference that has no distance is bound to no scope that is marked. -/
theorem refers_of_none {id : RefId} (h : ρ.distances.get? id = none) :
    ρ.refers marks id = false := by
  rw [refers, h]
  rfl

theorem refers_of_some {id : RefId} {distance : Nat} (h : ρ.distances.get? id = some distance) :
    ρ.refers marks id = marks.getD distance false := by
  rw [refers, h]
  rfl

section

variable {id : RefId} {name : Token}

theorem lookUp_follows (hname : ρ.Apart (ρ.refers marks id) name.lexeme) :
    ρ.Follows opened marks (Value.Renamed ρ) (lookUp id name)
      (lookUp id (ρ.respell (ρ.refers marks id) name)) := by
  refine .get_bind fun m m' h => orUndefined_follows _ ?_ m m' h
  rw [h.known, h.known', h.chain, respell_lexeme hname]
  cases hd : ρ.distances.get? id with
  | none =>
    rw [refers_of_none hd]
    exact h.store.get?_singleton h.global name.lexeme
  | some distance =>
    rw [refers_of_some hd]
    exact h.store.getAt? h.marked distance name.lexeme

theorem lookUp_same (hname : ρ.Other (ρ.refers marks id) name.lexeme) :
    ρ.Follows opened marks (Value.Renamed ρ) (lookUp id name) (lookUp id name) := by
  have hlookUp : ρ.Follows opened marks (Value.Renamed ρ) (lookUp id name)
      (lookUp id (ρ.respell (ρ.refers marks id) name)) := lookUp_follows hname.apart
  rwa [hname.respell] at hlookUp

theorem assign_follows (hname : ρ.Apart (ρ.refers marks id) name.lexeme) {v v' : Value}
    (hv : v.Renamed ρ opened v') :
    ρ.Follows opened marks (fun _ _ _ => True) (assign id name v)
      (assign id (ρ.respell (ρ.refers marks id) name) v') := by
  refine .get_bind fun m m' h => ((orUndefined_follows _ (R := fun opened frame frame' =>
    frame' = frame ∧ opened[frame]? = some (ρ.refers marks id)) ?_).bind
      fun opened' hle frame _ hframe => ?_) m m' h
  · rw [h.known, h.known', h.chain, respell_lexeme hname]
    cases hd : ρ.distances.get? id with
    | none =>
      rw [refers_of_none hd]
      exact h.store.home?_singleton h.global name.lexeme
    | some distance =>
      rw [refers_of_some hd]
      exact h.store.homeAt? h.marked distance name.lexeme
  · obtain ⟨rfl, hmarked⟩ := hframe
    rw [respell_lexeme hname]
    exact bindIn_follows hmarked name.lexeme (hv.mono hle)

end

/-- A name that the innermost scope binds is changed there. It is not exchanged there, but could be
    further out. -/
theorem assignInnermost_follows {name : Token} (hname : ρ.Other (marks.headD false) name.lexeme)
    {v v' : Value} (hv : v.Renamed ρ opened v') {m m' : Machine}
    (h : m.Renamed ρ opened marks m')
    (hbound : m.Binds name.lexeme) :
    ρ.Ends opened marks (fun _ _ _ => True) (assignInnermost name v m)
      (assignInnermost name v' m') := by
  have hmarked := h.marked
  cases hchain : m.chain with
  | nil =>
    have hnone : ∀ m : Machine, m.chain = [] → ∀ v,
        assignInnermost name v m = raise name (.undefinedVariable name.lexeme) m := by
      intro m hm v
      show (orUndefined name (m.store.home? m.chain name.lexeme) >>= fun frame =>
        bindIn frame name.lexeme v) m = _
      rw [hm]
      rfl
    rw [hnone m hchain, hnone m' (h.chain.trans hchain)]
    exact raise_same name _ m m' h
  | cons frame outer =>
    rw [hchain] at hmarked
    cases hmarked with
    | @cons _ marked _ tail hframe _ =>
      have hname : ρ.Other marked name.lexeme := hname
      have hbound' : (m'.store.lookup? frame name.lexeme).isSome := by
        have hlookup := h.store.lookup frame marked hframe name.lexeme
        rw [hname.key] at hlookup
        rw [isSome_of_rel hlookup]
        exact hbound frame outer hchain
      rw [assignInnermost_eq_define hchain (hbound frame outer hchain),
        assignInnermost_eq_define (h.chain.trans hchain) hbound']
      have hdefine : ρ.Follows opened (marked :: tail) (fun _ _ _ => True)
          (define name.lexeme v) (define name.lexeme v') := define_same hname hv
      exact hdefine m m' h

/-! ## Scopes -/

/-- A new scope, in which the names are exchanged or not. -/
theorem openScope_follows (marked : Bool) {outer : Chain} {around : List Bool}
    (houter : outer.Marked opened around) {bs bs' : List (String × Value)}
    (hbs : BindingsRenamed ρ opened marked bs bs') :
    ρ.Follows opened marks
      (fun opened chain chain' => chain' = chain ∧ chain.Marked opened (marked :: around))
      (openScope outer bs) (openScope outer bs') := by
  intro m m' h
  obtain ⟨hchain, hopen⟩ := h.store.openIn outer marked
  have hmarked := h.store.marked_openIn houter marked
  have hle : opened <+: opened ++ [marked] := List.prefix_append _ _
  refine .ok hle ⟨hchain, hmarked⟩
    { h with
      store := ?_
      global := mark_of_prefix hle h.global
      fields := fun identity name => rel_mono (fun _ _ hv => hv.mono hle) (h.fields identity name)
      marked := h.marked.mono hle }
  show Store.Renamed ρ (opened ++ [marked])
    (bs.foldl (fun store b => store.define (m.store.openIn outer).1 b.1 b.2)
      (m.store.openIn outer).2)
    (bs'.foldl (fun store b => store.define (m'.store.openIn outer).1 b.1 b.2)
      (m'.store.openIn outer).2)
  rw [hchain]
  exact hopen.defineAll hmarked (hbs.mono hle)

theorem within_follows {chain : Chain} {inside : List Bool} (hchain : chain.Marked opened inside)
    {x : Eval α} {y : Eval α'} (h : ρ.Follows opened inside R x y) :
    ρ.Follows opened marks R (within chain x) (within chain y) := by
  intro m m' hm
  have h := h { m with chain } { m' with chain } { hm with chain := rfl, marked := hchain }
  unfold within
  generalize x { m with chain } = r at h ⊢
  generalize y { m' with chain } = r' at h ⊢
  cases h with
  | ok hle ha hs =>
    exact .ok hle ha { hs with chain := hm.chain, marked := hm.marked.mono hle }
  | error hle he hs =>
    exact .error hle he { hs with chain := hm.chain, marked := hm.marked.mono hle }

/-! ## Functions, classes and objects -/

theorem freshIdentity_follows :
    ρ.Follows opened marks (fun _ => Eq) freshIdentity freshIdentity :=
  fun _ _ h => .ok (List.prefix_refl _) h.nextIdentity.symm
    { h with nextIdentity := congrArg (· + 1) h.nextIdentity }

theorem close_follows {f f' : FunctionDef} (hf : f.Renamed ρ marks f') :
    ρ.Follows opened marks (Value.Renamed ρ) (close f) (close f') := by
  refine freshIdentity_follows.bind fun opened' _ identity _ hi => .get_bind fun m m' h => ?_
  subst hi
  exact .ok (List.prefix_refl _) (.function ⟨rfl, ⟨marks, h.marked, hf⟩, h.chain, rfl⟩) h

theorem bindMethod_follows {f f' : Method} (hf : f.Renamed ρ opened f') {v v' : Value}
    (hv : v.Renamed ρ opened v') :
    ρ.Follows opened marks (Closure.Renamed ρ) (bindMethod f v) (bindMethod f' v') := by
  obtain ⟨around, hchain, hdefinition⟩ := hf.definition
  unfold bindMethod
  rw [hf.chain]
  refine (openScope_follows false hchain (bindingsRenamed_one "this" hv)).bind
    fun _ _ chain _ hopen => ?_
  obtain ⟨rfl, hmarked⟩ := hopen
  refine freshIdentity_follows.bind fun _ hle identity _ hi => .pure ?_
  subst hi
  exact ⟨rfl, ⟨_, hmarked.mono hle, hdefinition⟩, rfl, hdefinition.isInitializer⟩

theorem getProperty_follows (identity : Nat) {c c' : Class} (hc : c.Renamed ρ opened c')
    (name : Token) :
    ρ.Follows opened marks (Value.Renamed ρ) (getProperty identity c name)
      (getProperty identity c' name) := by
  refine .get_bind fun m m' h => ?_
  have hfield := h.fields identity name.lexeme
  unfold fieldOf? at hfield
  generalize m.objects[identity]?.bind (·.find? name.lexeme) = field at hfield ⊢
  generalize m'.objects[identity]?.bind (·.find? name.lexeme) = field' at hfield ⊢
  cases hfield with
  | some hv => exact .ok (List.prefix_refl _) hv h
  | none =>
    have hmethod := hc.method? name.lexeme
    dsimp only
    generalize c.method? name.lexeme = method at hmethod ⊢
    generalize c'.method? name.lexeme = method' at hmethod ⊢
    cases hmethod with
    | none => exact raise_same name _ m m' h
    | some hm =>
      exact ((bindMethod_follows hm (.object identity hc)).bind fun _ _ f f' hf =>
        .pure (.function hf)) m m' h

theorem newObject_follows {c c' : Class} (hc : c.Renamed ρ opened c') :
    ρ.Follows opened marks (Value.Renamed ρ) (newObject c) (newObject c') := by
  intro m m' h
  unfold newObject
  refine .ok (List.prefix_refl _) ?_
    { h with objects := by simp [h.objects], fields := fun identity name => ?_ }
  · rw [h.objects]
    exact .object _ hc
  · have hfields := h.fields identity name
    unfold fieldOf? at hfields ⊢
    rw [Array.getElem?_push, Array.getElem?_push, h.objects]
    split
    · exact .none
    · exact hfields

theorem setField_follows (identity : Nat) (name : String) {v v' : Value}
    (hv : v.Renamed ρ opened v') :
    ρ.Follows opened marks (fun _ _ _ => True) (setField identity name v)
      (setField identity name v') := by
  intro m m' h
  unfold setField
  refine .ok (List.prefix_refl _) trivial
    { h with objects := by simp [h.objects], fields := fun other key => ?_ }
  rw [fieldOf?_modify, fieldOf?_modify, h.objects]
  split
  · exact .some hv
  · exact h.fields other key

/-! ## Output and clock -/

theorem write_follows (chunk : String) :
    ρ.Follows opened marks (fun _ _ _ => True) (write chunk) (write chunk) := by
  refine .get_bind fun m m' h => ?_
  rw [h.output]
  split
  · exact .ok (List.prefix_refl _) trivial
      { h with output := congrArg (·.append chunk) h.output }
  · exact .error (List.prefix_refl _) (.error false (.output .full)) h

theorem printLine_follows (text : String) :
    ρ.Follows opened marks (fun _ _ _ => True) (printLine text) (printLine text) :=
  (write_follows text).bind fun _ _ _ _ _ => write_follows "\n"

theorem flush_follows : ρ.Follows opened marks (fun _ _ _ => True) flush flush := by
  refine .get_bind fun m m' h => ?_
  rw [h.output]
  split
  · exact .error (List.prefix_refl _) (.error false (.output .notFlushed)) h
  · exact .ok (List.prefix_refl _) trivial h

theorem readClock_follows :
    ρ.Follows opened marks (Value.Renamed ρ) readClock readClock := by
  intro m m' h
  unfold readClock
  refine .ok (List.prefix_refl _) ?_ { h with clock := by rw [h.clock] }
  rw [h.clock]
  exact .number _

end Renaming

end Lox
