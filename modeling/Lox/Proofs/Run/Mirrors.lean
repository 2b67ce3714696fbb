import Lox.Proofs.Run.Noting
import Lox.Proofs.Scoping.Checked

set_option autoImplicit false

/-! # Chains of frames and scopes of the text

The chain in which a reference is read mirrors the scopes that are open where it stands: frame by
scope, each frame opened for the scope beside it (`Mirrors`). So the frame a number of steps out is
the one of the scope as many steps out, the innermost `this` is the object that the running method
is bound to, and the `super` one step further out is the parent of the class that declares it. -/

namespace Lox

/-! ## Where functions and classes come from -/

/-- A function belongs to a receiver if it was made by binding a method to it, or was declared while
    a function was running that belongs to it. -/
inductive Owner (log : List Event) : Closure → Receiver → Prop where
  | bound {f r} : .bound f r ∈ log → Owner log f r
  | declared {f g r} : .declared f (some g) ∈ log → Owner log g r → Owner log f r

/-- The superclass clause in the declaration of a class gave another class. -/
def HasParent (log : List Event) (home : ClassBody) (parent : Class) : Prop :=
  ∃ definitions, .made home definitions (some parent) ∈ log

/-- A class has a method with a definition. -/
def ClassBody.Has (home : ClassBody) (f : FunctionDef) : Prop :=
  ∃ name m, home.methods.find? name = some m ∧ m.definition = f

/-- A class is made of its declaration and the class that its superclass clause gave. -/
inductive Class.Made (log : List Event) : Class → Prop where
  | root {body definitions} : .made body definitions none ∈ log → Made log ⟨body, []⟩
  | derived {body definitions parent} : .made body definitions (some parent) ∈ log →
      Made log parent → Made log ⟨body, parent.lineage⟩

section

variable {log log' : List Event} (h : ∀ e ∈ log, e ∈ log')

include h

theorem Owner.mono {f : Closure} {r : Receiver} (ho : Owner log f r) : Owner log' f r := by
  induction ho with
  | bound hb => exact .bound (h _ hb)
  | declared hd _ ih => exact .declared (h _ hd) ih

theorem HasParent.mono {home : ClassBody} {parent : Class} (hp : HasParent log home parent) :
    HasParent log' home parent := by
  obtain ⟨definitions, hmade⟩ := hp
  exact ⟨definitions, h _ hmade⟩

theorem Class.Made.mono {c : Class} (hc : c.Made log) : c.Made log' := by
  induction hc with
  | root hm => exact .root (h _ hm)
  | derived hm _ ih => exact .derived (h _ hm) ih

end

/-! ## Growth -/

namespace Moment

/-- What a name is bound to in a frame. -/
def lookup? (μ : Moment) (frame : FrameId) (name : String) : Option Value :=
  μ.machine.store.lookup? frame name

/-- What a run keeps: events, frames, bindings, and the values of `this` and `super`. -/
structure Grows (μ μ' : Moment) : Prop where
  log : ∀ e ∈ μ.log, e ∈ μ'.log
  frames : μ.machine.store.frames.size ≤ μ'.machine.store.frames.size
  bound : ∀ frame name, (μ.lookup? frame name).isSome → (μ'.lookup? frame name).isSome
  reserved : ∀ frame name, ¬ Chosen name → ∀ v, μ.lookup? frame name = some v →
    μ'.lookup? frame name = some v

theorem Grows.refl (μ : Moment) : μ.Grows μ :=
  ⟨fun _ h => h, Nat.le_refl _, fun _ _ h => h, fun _ _ _ _ h => h⟩

theorem Grows.trans {μ μ₁ μ' : Moment} (h : μ.Grows μ₁) (h' : μ₁.Grows μ') : μ.Grows μ' :=
  ⟨fun e he => h'.log e (h.log e he), Nat.le_trans h.frames h'.frames,
    fun frame name hb => h'.bound frame name (h.bound frame name hb),
    fun frame name hn v hv => h'.reserved frame name hn v (h.reserved frame name hn v hv)⟩

end Moment

theorem not_chosen_this : ¬ Chosen "this" := fun h => h.1 rfl

theorem not_chosen_super : ¬ Chosen "super" := fun h => h.2 rfl

/-! ## Mirrors -/

/-- A scope that a block or a call opens. -/
def Scope.Plain : Scope → Prop
  | .block _ | .call _ => True
  | _ => False

/-- Statements stand in the scope of a block or of a call, or in none. -/
def Scopes.Open (scopes : Scopes) : Prop := ∀ s ∈ scopes.head?, s.scope.Plain

theorem Scopes.Open.inside {scopes : Scopes} (h : scopes.Open) : scopes.Inside := by
  intro s hs p hp
  have hplain := h s hs
  rw [hp] at hplain
  exact hplain

theorem Scopes.classSort_cons {s : OpenScope} (h : s.scope.Plain) (scopes : Scopes) :
    Scopes.classSort (s :: scopes) = scopes.classSort := by
  match s, h with
  | ⟨.block _, _⟩, _ | ⟨.call _, _⟩, _ => rfl

theorem Scopes.distance?_cons (s : OpenScope) (scopes : Scopes) (name : String) :
    Scopes.distance? (s :: scopes) name =
      if (s.names.find? name).isSome then some 0 else (scopes.distance? name).map (· + 1) :=
  List.findIdx?_cons

/-- A chain of frames mirrors scopes of the text. The innermost method around them is bound to a
    receiver. -/
inductive Mirrors (μ : Moment) : Option Receiver → Chain → Scopes → Prop where
  | global : Mirrors μ none globalChain []
  | plain {owner chain scopes frame s} : Mirrors μ owner chain scopes → s.scope.Plain →
      .opened s.scope frame ∈ μ.log →
      (∀ name ready, s.names.find? name = some ready →
        Chosen name ∧ (ready = true → (μ.lookup? frame name).isSome)) →
      Mirrors μ owner (frame :: chain) (s :: scopes)
  | method {owner chain scopes frame f r} : Mirrors μ owner chain scopes → scopes.Open →
      r.home.Has f → .opened (.receiver f) frame ∈ μ.log →
      μ.lookup? frame "this" = some r.object →
      Mirrors μ (some r) (frame :: chain) (f.receiver :: scopes)
  | derivedMethod {owner chain scopes frame outer f s r parent} : Mirrors μ owner chain scopes →
      .opened (.parent s) outer ∈ μ.log → μ.lookup? outer "super" = some (.class parent) →
      HasParent μ.log r.home parent → r.home.Has f →
      .opened (.receiver f) frame ∈ μ.log → μ.lookup? frame "this" = some r.object →
      Mirrors μ (some r) (frame :: outer :: chain) (f.receiver :: s.scope :: scopes)

namespace Mirrors

variable {μ μ' : Moment} {owner : Option Receiver} {chain : Chain} {scopes : Scopes}

theorem grows (hm : Mirrors μ owner chain scopes) (h : μ.Grows μ') :
    Mirrors μ' owner chain scopes := by
  induction hm with
  | global => exact .global
  | plain _ hs hopened hnames ih =>
    refine .plain ih hs (h.log _ hopened) fun name ready hfind => ?_
    obtain ⟨hchosen, hbound⟩ := hnames name ready hfind
    exact ⟨hchosen, fun hready => h.bound _ _ (hbound hready)⟩
  | method _ hscopes hhas hopened hthis ih =>
    exact .method ih hscopes hhas (h.log _ hopened) (h.reserved _ _ not_chosen_this _ hthis)
  | derivedMethod _ hparent hsuper hhome hhas hopened hthis ih =>
    exact .derivedMethod ih (h.log _ hparent) (h.reserved _ _ not_chosen_super _ hsuper)
      (hhome.mono h.log) hhas (h.log _ hopened) (h.reserved _ _ not_chosen_this _ hthis)

/-! ### Declared names -/

/-- A name may be declared whether the frame has it or not. -/
theorem put_false (hm : Mirrors μ owner chain scopes) (hscopes : scopes.Open) {name : String}
    (hname : Chosen name) : Mirrors μ owner chain (scopes.put name false) := by
  cases hm with
  | global => exact .global
  | plain hm hs hopened hnames =>
    refine .plain hm hs hopened fun other ready hfind => ?_
    rw [Bindings.find?_bind] at hfind
    split at hfind
    · next heq =>
      cases hfind
      exact ⟨heq ▸ hname, nofun⟩
    · exact hnames other ready hfind
  | method => exact (hscopes _ rfl).elim
  | derivedMethod => exact (hscopes _ rfl).elim

/-- A name that the innermost frame binds is ready. -/
theorem put_true (hm : Mirrors μ owner chain scopes) (hscopes : scopes.Open) {name : String}
    (hname : Chosen name) (hbound : ∀ frame ∈ chain.head?, (μ.lookup? frame name).isSome) :
    Mirrors μ owner chain (scopes.put name true) := by
  cases hm with
  | global => exact .global
  | plain hm hs hopened hnames =>
    refine .plain hm hs hopened fun other ready hfind => ?_
    rw [Bindings.find?_bind] at hfind
    split at hfind
    · next heq => exact heq ▸ ⟨hname, fun _ => hbound _ rfl⟩
    · exact hnames other ready hfind
  | method => exact (hscopes _ rfl).elim
  | derivedMethod => exact (hscopes _ rfl).elim

/-! ### Counting outwards -/

/-- The frame some steps out was opened for the scope as many steps out, and binds what is ready
    there. -/
theorem frame (hm : Mirrors μ owner chain scopes) : ∀ {d : Nat} {s : OpenScope},
    scopes[d]? = some s → ∃ frame, chain[d]? = some frame ∧ .opened s.scope frame ∈ μ.log ∧
      ∀ name, s.names.find? name = some true → (μ.lookup? frame name).isSome := by
  have hfound : ∀ (n : String) {name : String} {frame : FrameId} {v : Value},
      μ.lookup? frame n = some v → Bindings.find? name [(n, true)] = some true →
        (μ.lookup? frame name).isSome := by
    intro n name frame v hv hfind
    simp only [Bindings.find?] at hfind
    split at hfind
    · next heq => rw [← heq, hv]; rfl
    · cases hfind
  induction hm with
  | global =>
    intro d s hs
    cases hs
  | @plain _ _ _ frame s _ _ hopened hnames ih =>
    intro d s hs
    cases d with
    | zero =>
      cases hs
      exact ⟨frame, rfl, hopened, fun name hfind => (hnames name true hfind).2 rfl⟩
    | succ d => exact ih hs
  | @method _ _ _ frame _ _ _ _ _ hopened hthis ih =>
    intro d s hs
    cases d with
    | zero =>
      cases hs
      exact ⟨frame, rfl, hopened, fun name => hfound "this" hthis⟩
    | succ d => exact ih hs
  | @derivedMethod _ _ _ frame outer _ _ _ _ _ hparent hsuper _ _ hopened hthis ih =>
    intro d s hs
    cases d with
    | zero =>
      cases hs
      exact ⟨frame, rfl, hopened, fun name => hfound "this" hthis⟩
    | succ d =>
      cases d with
      | zero =>
        cases hs
        exact ⟨outer, rfl, hparent, fun name => hfound "super" hsuper⟩
      | succ d => exact ih hs

/-- Behind the frames of the scopes there is the global one. -/
theorem global_frame (hm : Mirrors μ owner chain scopes) :
    chain.drop scopes.length = globalChain := by
  induction hm with
  | global => rfl
  | plain _ _ _ _ ih => exact ih
  | method _ _ _ _ _ ih => exact ih
  | derivedMethod _ _ _ _ _ _ _ ih => exact ih

/-! ### Receivers -/

/-- The innermost method around a point belongs to the class that the receiver is bound for. -/
theorem method? (hm : Mirrors μ owner chain scopes) :
    ∀ r, owner = some r → ∃ f, scopes.method? = some f ∧ r.home.Has f := by
  induction hm with
  | global => exact fun _ h => nomatch h
  | @plain _ _ _ _ s _ hs _ _ ih =>
    intro r hr
    obtain ⟨f, hf, hhas⟩ := ih r hr
    refine ⟨f, ?_, hhas⟩
    match s, hs with
    | ⟨.block _, _⟩, _ | ⟨.call _, _⟩, _ => exact hf
  | @method _ _ _ _ f _ _ _ hhas =>
    intro r hr
    cases hr
    exact ⟨f, rfl, hhas⟩
  | @derivedMethod _ _ _ _ _ f _ _ _ _ _ _ _ hhas =>
    intro r hr
    cases hr
    exact ⟨f, rfl, hhas⟩

theorem find?_of_plain {s : OpenScope} {frame : FrameId} {name : String} (hname : ¬ Chosen name)
    (hnames : ∀ n ready, s.names.find? n = some ready →
      Chosen n ∧ (ready = true → (μ.lookup? frame n).isSome)) : s.names.find? name = none :=
  Option.eq_none_iff_forall_not_mem.2 fun ready hfind => hname (hnames name ready hfind).1

/-- The frame of the innermost `this` has the object to which the running method is bound. -/
theorem getAt?_this (hm : Mirrors μ owner chain scopes) : ∀ {d : Nat},
    scopes.distance? "this" = some d →
      ∃ r, owner = some r ∧ μ.machine.store.getAt? chain d "this" = some r.object := by
  induction hm with
  | global => exact fun hd => nomatch hd
  | plain _ _ _ hnames ih =>
    intro d hd
    rw [Scopes.distance?_cons, find?_of_plain not_chosen_this hnames] at hd
    obtain ⟨inner, hinner, rfl⟩ := Option.map_eq_some_iff.1 hd
    exact ih hinner
  | method _ _ _ _ hthis =>
    intro d hd
    cases hd
    exact ⟨_, rfl, hthis⟩
  | derivedMethod _ _ _ _ _ _ hthis =>
    intro d hd
    cases hd
    exact ⟨_, rfl, hthis⟩

/-- In a class there is a `this`. -/
theorem distance?_this (hm : Mirrors μ owner chain scopes) :
    scopes.classSort ≠ .noClass → (scopes.distance? "this").isSome := by
  induction hm with
  | global => exact fun hsort => absurd rfl hsort
  | plain _ hs _ hnames ih =>
    intro hsort
    rw [Scopes.distance?_cons, find?_of_plain not_chosen_this hnames]
    rw [Scopes.classSort_cons hs] at hsort
    simpa using ih hsort
  | method => exact fun _ => rfl
  | derivedMethod => exact fun _ => rfl

/-- In a class with a superclass, the frame of the innermost `super` has the class that the
    superclass clause gave, and the frame just inside it the object. -/
theorem getAt?_super (hm : Mirrors μ owner chain scopes) : ∀ {d : Nat},
    scopes.classSort = .derived → scopes.distance? "super" = some d →
      ∃ inner r parent, d = inner + 1 ∧ owner = some r ∧ HasParent μ.log r.home parent ∧
        μ.machine.store.getAt? chain inner "this" = some r.object ∧
        μ.machine.store.getAt? chain (inner + 1) "super" = some (.class parent) := by
  induction hm with
  | global => exact fun _ hd => nomatch hd
  | plain _ hs _ hnames ih =>
    intro d hsort hd
    rw [Scopes.classSort_cons hs] at hsort
    rw [Scopes.distance?_cons, find?_of_plain not_chosen_super hnames] at hd
    obtain ⟨inner, hinner, rfl⟩ := Option.map_eq_some_iff.1 hd
    obtain ⟨inner, r, parent, rfl, hframes⟩ := ih hsort hinner
    exact ⟨inner + 1, r, parent, rfl, hframes⟩
  | method _ hscopes =>
    intro d hsort
    rw [Scopes.classSort_receiver hscopes.inside] at hsort
    exact nomatch hsort
  | derivedMethod _ _ hsuper hhome _ _ hthis =>
    intro d _ hd
    cases hd
    exact ⟨0, _, _, rfl, rfl, hhome, hthis, hsuper⟩

theorem distance?_super (hm : Mirrors μ owner chain scopes) :
    scopes.classSort = .derived → (scopes.distance? "super").isSome := by
  induction hm with
  | global => exact fun hsort => nomatch hsort
  | plain _ hs _ hnames ih =>
    intro hsort
    rw [Scopes.distance?_cons, find?_of_plain not_chosen_super hnames]
    rw [Scopes.classSort_cons hs] at hsort
    simpa using ih hsort
  | method _ hscopes =>
    intro hsort
    rw [Scopes.classSort_receiver hscopes.inside] at hsort
    exact nomatch hsort
  | derivedMethod => exact fun _ => rfl

end Mirrors

end Lox
