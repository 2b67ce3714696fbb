import Lox.Proofs.Run.Mirrors
import Mathlib.Data.List.Pairwise

set_option autoImplicit false

/-! # Sound moments

The invariant of a run (`Sound`): every function that can be reached has a body that is checked for
the scopes which its chain mirrors, every method is one of a class whose declaration is in the log,
and every reading in the log happened in a chain that mirrors the scopes of a known site. Which sites
are known is left open (`K`); what matters is that the distances are right for them. -/

namespace Lox

/-! ## Numbered events -/

/-- The frame that an event opens. -/
def Event.frame? : Event → Option Nat
  | opened _ frame => some frame
  | _ => none

/-- The identity of what an event makes. -/
def Event.identity? : Event → Option Nat
  | declared f _ => some f.identity
  | bound f _ => some f.identity
  | made body _ _ => some body.identity
  | _ => none

/-- Events have different numbers, all of them below the next one. -/
structure Numbered (number? : Event → Option Nat) (log : List Event) (next : Nat) : Prop where
  below : ∀ e ∈ log, ∀ i ∈ number? e, i < next
  distinct : log.Pairwise fun e e' => ∀ i ∈ number? e, ∀ i' ∈ number? e', i ≠ i'

namespace Numbered

variable {number? : Event → Option Nat} {log : List Event} {next next' : Nat} {e e' : Event}

theorem widen (h : Numbered number? log next) (hn : next ≤ next') : Numbered number? log next' :=
  ⟨fun e he i hi => Nat.lt_of_lt_of_le (h.below e he i hi) hn, h.distinct⟩

theorem snoc_none (h : Numbered number? log next) (he : number? e = none) :
    Numbered number? (log ++ [e]) next := by
  refine ⟨fun e' he' i hi => ?_, List.pairwise_append.2 ⟨h.distinct, by simp, ?_⟩⟩
  · rcases List.mem_append.1 he' with he' | he'
    · exact h.below e' he' i hi
    · rw [List.mem_singleton.1 he', he] at hi
      exact nomatch hi
  · intro e' _ e'' he'' i _ i' hi'
    rw [List.mem_singleton.1 he'', he] at hi'
    exact nomatch hi'

theorem snoc (h : Numbered number? log next) (he : number? e = some next) :
    Numbered number? (log ++ [e]) (next + 1) := by
  refine ⟨fun e' he' i hi => ?_, List.pairwise_append.2 ⟨h.distinct, by simp, ?_⟩⟩
  · rcases List.mem_append.1 he' with he' | he'
    · exact Nat.lt_succ_of_lt (h.below e' he' i hi)
    · rw [List.mem_singleton.1 he', he] at hi
      cases hi
      exact Nat.lt_succ_self next
  · intro e' he' e'' he'' i hi i' hi'
    rw [List.mem_singleton.1 he'', he] at hi'
    cases hi'
    exact Nat.ne_of_lt (h.below e' he' i hi)

/-- Two events with one number are the same. -/
theorem eq (h : Numbered number? log next) (he : e ∈ log) (he' : e' ∈ log) {i : Nat}
    (hi : number? e = some i) (hi' : number? e' = some i) : e = e' := by
  by_contra hne
  have hsymm : Std.Symm fun e e' => ∀ i ∈ number? e, ∀ i' ∈ number? e', i ≠ i' :=
    ⟨fun _ _ h i hi i' hi' => (h i' hi' i hi).symm⟩
  exact h.distinct.forall he he' hne i hi i hi' rfl

end Numbered

/-- A function belongs to one receiver at most. -/
theorem Owner.unique {log : List Event} {next : Nat} (hlog : Numbered Event.identity? log next)
    {f : Closure} {r r' : Receiver} (h : Owner log f r) (h' : Owner log f r') : r = r' := by
  induction h with
  | bound hb =>
    cases h' with
    | bound hb' =>
      cases hlog.eq hb hb' rfl rfl
      rfl
    | declared hd' _ => exact nomatch hlog.eq hb hd' rfl rfl
  | declared hd _ ih =>
    cases h' with
    | bound hb' => exact nomatch hlog.eq hd hb' rfl rfl
    | declared hd' ho' =>
      cases hlog.eq hd hd' rfl rfl
      exact ih ho'

/-- The superclass clause of a declaration gave one class. -/
theorem HasParent.unique {log : List Event} {next : Nat} (hlog : Numbered Event.identity? log next)
    {home : ClassBody} {parent parent' : Class} (h : HasParent log home parent)
    (h' : HasParent log home parent') : parent = parent' := by
  obtain ⟨_, hm⟩ := h
  obtain ⟨_, hm'⟩ := h'
  cases hlog.eq hm hm' rfl rfl
  rfl

/-! ## Functions and classes that fit -/

section

variable (K : Site → Prop) (μ : Moment)

/-- The body of a function is checked for the scopes that its chain mirrors. An initializer is bound
    to a receiver, whose object it finds in the first frame of its chain. -/
structure Closure.Fits (f : Closure) : Prop where
  body : ∃ owner scopes, Mirrors μ owner f.chain scopes ∧ f.definition.Checked K scopes ∧
    ∀ r, owner = some r → Owner μ.log f r
  initializes : f.isInitializer = true → ∃ frame outer r, f.chain = frame :: outer ∧
    .bound f r ∈ μ.log ∧ μ.lookup? frame "this" = some r.object

/-- The same for a method, whose object is still missing. -/
inductive Method.Fits (home : ClassBody) : Method → Prop where
  | plain {owner chain scopes f} : Mirrors μ owner chain scopes → scopes.Open →
      f.Checked K (f.receiver :: scopes) → Method.Fits home ⟨f, chain⟩
  | derived {owner chain scopes f outer s parent} : Mirrors μ owner chain scopes →
      .opened (.parent s) outer ∈ μ.log → μ.lookup? outer "super" = some (.class parent) →
      HasParent μ.log home parent → f.Checked K (f.receiver :: s.scope :: scopes) →
      Method.Fits home ⟨f, outer :: chain⟩

/-- The methods of a class and of its ancestors fit. -/
structure Class.Fits (c : Class) : Prop where
  made : c.Made μ.log
  methods : ∀ body ∈ c.lineage, ∀ name m, body.methods.find? name = some m → m.Fits K μ body

def Value.Fits : Value → Prop
  | .function f => f.Fits K μ
  | .class c => c.Fits K μ
  | .object _ c => c.Fits K μ
  | _ => True

end

/-- A reference was met in a chain that mirrors the scopes of a known site, while a function was
    running that belongs to the receiver around it. -/
def StandsAt (K : Site → Prop) (log : List Event) (r : Reference) (m : Machine)
    (running : Option Closure) : Prop :=
  ∃ owner scopes, K ⟨r, scopes⟩ ∧ Site.Right m.distances ⟨r, scopes⟩ ∧
    Mirrors ⟨log, m⟩ owner m.chain scopes ∧
    ∀ x, owner = some x → ∃ f, running = some f ∧ Owner log f x

def ReadsAt (K : Site → Prop) (log : List Event) (r : Reference) (m : Machine)
    (running : Option Closure) : Prop :=
  r.sort ≠ .assign ∧ StandsAt K log r m running

def Event.Fits (K : Site → Prop) (log : List Event) : Event → Prop
  | read r m running => ReadsAt K log r m running
  | assigned r _ m => ∃ running, StandsAt K log r m running
  | bound f r => r.home.Has f.definition
  | ended _ flow => flow ≠ .broken
  | made body definitions parent =>
    (∃ chain, body.methods = methodsOf chain definitions) ∧ ∀ c, parent = some c → c.Made log
  | _ => True

section

variable {K K' : Site → Prop} {μ μ' : Moment} (hK : ∀ site, K site → K' site)

include hK

theorem Closure.Fits.mono (hg : μ.Grows μ') {f : Closure} (h : f.Fits K μ) : f.Fits K' μ' := by
  obtain ⟨owner, scopes, hm, hchecked, ho⟩ := h.body
  refine ⟨⟨owner, scopes, hm.grows hg, FunctionDef.Checked.mono hK _ hchecked,
    fun r hr => (ho r hr).mono hg.log⟩, fun hinit => ?_⟩
  obtain ⟨frame, outer, r, hchain, hbound, hthis⟩ := h.initializes hinit
  exact ⟨frame, outer, r, hchain, hg.log _ hbound,
    hg.reserved _ _ not_chosen_this _ hthis⟩

theorem Method.Fits.mono (hg : μ.Grows μ') {home : ClassBody} {m : Method}
    (h : m.Fits K μ home) : m.Fits K' μ' home := by
  cases h with
  | plain hm hscopes hchecked =>
    exact .plain (hm.grows hg) hscopes (FunctionDef.Checked.mono hK _ hchecked)
  | derived hm hopened hsuper hhome hchecked =>
    exact .derived (hm.grows hg) (hg.log _ hopened) (hg.reserved _ _ not_chosen_super _ hsuper)
      (hhome.mono hg.log) (FunctionDef.Checked.mono hK _ hchecked)

theorem Class.Fits.mono (hg : μ.Grows μ') {c : Class} (h : c.Fits K μ) : c.Fits K' μ' :=
  ⟨h.made.mono hg.log, fun body hbody name m hm => (h.methods body hbody name m hm).mono hK hg⟩

theorem Value.Fits.mono (hg : μ.Grows μ') {v : Value} (h : v.Fits K μ) : v.Fits K' μ' := by
  cases v with
  | function f => exact Closure.Fits.mono hK hg h
  | «class» c => exact Class.Fits.mono hK hg h
  | object identity c => exact Class.Fits.mono hK hg h
  | _ => trivial

theorem StandsAt.mono {log log' : List Event} (hlog : ∀ e ∈ log, e ∈ log') {r : Reference}
    {m : Machine} {running : Option Closure} (h : StandsAt K log r m running) :
    StandsAt K' log' r m running := by
  obtain ⟨owner, scopes, hknown, hright, hm, ho⟩ := h
  have hg : Moment.Grows ⟨log, m⟩ ⟨log', m⟩ :=
    ⟨hlog, Nat.le_refl _, fun _ _ h => h, fun _ _ _ _ h => h⟩
  refine ⟨owner, scopes, hK _ hknown, hright, hm.grows hg, fun x hx => ?_⟩
  obtain ⟨f, hf, ho⟩ := ho x hx
  exact ⟨f, hf, ho.mono hlog⟩

theorem Event.Fits.mono {log log' : List Event} (hlog : ∀ e ∈ log, e ∈ log') {e : Event}
    (h : e.Fits K log) : e.Fits K' log' := by
  cases e with
  | read r m running => exact ⟨h.1, h.2.mono hK hlog⟩
  | assigned r v m =>
    obtain ⟨running, h⟩ := h
    exact ⟨running, h.mono hK hlog⟩
  | bound f r => exact h
  | ended f flow => exact h
  | made body definitions parent => exact ⟨h.1, fun c hc => (h.2 c hc).mono hlog⟩
  | _ => trivial

end

/-! ## The invariant -/

namespace Moment

/-- What a field of an object holds. -/
def field? (μ : Moment) (object : Nat) (name : String) : Option Value :=
  μ.machine.objects[object]?.bind (·.find? name)

/-- Nothing can go wrong from here on. -/
structure Sound (K : Site → Prop) (μ : Moment) : Prop where
  global : 0 < μ.machine.store.frames.size
  values : ∀ frame name v, μ.lookup? frame name = some v → v.Fits K μ
  fields : ∀ object name v, μ.field? object name = some v → v.Fits K μ
  events : ∀ e ∈ μ.log, e.Fits K μ.log
  frames : Numbered Event.frame? μ.log μ.machine.store.frames.size
  identities : Numbered Event.identity? μ.log μ.machine.nextIdentity
  right : ∀ site, K site → site.Right μ.machine.distances

/-- More sites may be known, and the machine may have changed in what the invariant does not see. -/
theorem Sound.renew {K K' : Site → Prop} {μ : Moment} {m : Machine} (h : μ.Sound K)
    (hK : ∀ site, K site → K' site) (hstore : m.store = μ.machine.store)
    (hobjects : m.objects = μ.machine.objects)
    (hidentity : m.nextIdentity = μ.machine.nextIdentity)
    (hright : ∀ site, K' site → site.Right m.distances) : Sound K' ⟨μ.log, m⟩ := by
  have hlookup : ∀ frame name, lookup? ⟨μ.log, m⟩ frame name = μ.lookup? frame name :=
    fun frame name => by rw [lookup?, hstore, lookup?]
  have hg : μ.Grows ⟨μ.log, m⟩ :=
    ⟨fun _ h => h, Nat.le_of_eq (by rw [hstore]), fun frame name h => by rwa [hlookup],
      fun frame name _ v h => by rwa [hlookup]⟩
  refine ⟨?_, fun frame name v hv => ?_, fun object name v hv => ?_,
    fun e he => (h.events e he).mono hK fun _ h => h, ?_, ?_, hright⟩
  · rw [hstore]
    exact h.global
  · rw [hlookup] at hv
    exact (h.values frame name v hv).mono hK hg
  · rw [field?, hobjects] at hv
    exact (h.fields object name v hv).mono hK hg
  · rw [hstore]
    exact h.frames
  · rw [hidentity]
    exact h.identities

/-- What a step of a run leads to. -/
structure Leads (μ μ' : Moment) : Prop extends Grows μ μ' where
  chain : μ'.machine.chain = μ.machine.chain
  distances : μ'.machine.distances = μ.machine.distances

theorem Leads.refl (μ : Moment) : μ.Leads μ := ⟨.refl μ, rfl, rfl⟩

theorem Leads.trans {μ μ₁ μ' : Moment} (h : μ.Leads μ₁) (h' : μ₁.Leads μ') : μ.Leads μ' :=
  ⟨h.toGrows.trans h'.toGrows, h'.chain.trans h.chain, h'.distances.trans h.distances⟩

end Moment

theorem Value.Fits.leads {K : Site → Prop} {μ μ' : Moment} {v : Value} (h : v.Fits K μ)
    (hl : μ.Leads μ') : v.Fits K μ' :=
  h.mono (fun _ h => h) hl.toGrows

namespace Moment

variable {K : Site → Prop} {μ μ' : Moment}

/-- A moment is sound if what is new in it fits. -/
theorem Sound.leads (h : μ.Sound K) (hl : μ.Leads μ')
    (hvalues : ∀ frame name v, μ'.lookup? frame name = some v →
      μ.lookup? frame name = some v ∨ v.Fits K μ')
    (hfields : ∀ object name v, μ'.field? object name = some v →
      μ.field? object name = some v ∨ v.Fits K μ')
    (hevents : ∀ e ∈ μ'.log, e ∈ μ.log ∨ e.Fits K μ'.log)
    (hframes : Numbered Event.frame? μ'.log μ'.machine.store.frames.size)
    (hidentities : Numbered Event.identity? μ'.log μ'.machine.nextIdentity) : μ'.Sound K where
  global := Nat.lt_of_lt_of_le h.global hl.frames
  values := fun frame name v hv =>
    (hvalues frame name v hv).elim (fun hv => (h.values frame name v hv).leads hl) id
  fields := fun object name v hv =>
    (hfields object name v hv).elim (fun hv => (h.fields object name v hv).leads hl) id
  events := fun e he =>
    (hevents e he).elim (fun he => (h.events e he).mono (fun _ h => h) hl.log) id
  frames := hframes
  identities := hidentities
  right := fun site hsite => by
    rw [hl.distances]
    exact h.right site hsite

end Moment

end Lox
