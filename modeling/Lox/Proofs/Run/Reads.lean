import Lox.Proofs.Run.Records
import Lox.Proofs.Run.Sources
import Mathlib.Data.List.Nodup

set_option autoImplicit false

/-! # Reads find their bindings

Whenever a session reads a name, the frames it can see are those of the scopes that stand around the
reference in the text, one frame for each scope, in the same order. So the frame that the recorded
distance leads to is the one of the scope in which the resolver found the name, and the name is bound
there. A name without a distance is declared in none of these scopes, and only the global frame is
looked at. -/

namespace Lox

/-! ## Distances -/

/-- A distance leads to the innermost scope that has the name. -/
theorem Scopes.of_distance? {scopes : Scopes} {name : String} {d : Nat}
    (h : scopes.distance? name = some d) :
    (∃ s, scopes[d]? = some s ∧ (s.names.find? name).isSome) ∧
      ∀ i s, i < d → scopes[i]? = some s → s.names.find? name = none := by
  obtain ⟨hd, hfound, hbefore⟩ := List.findIdx?_eq_some_iff_getElem.1 h
  refine ⟨⟨scopes[d], List.getElem?_eq_getElem hd, hfound⟩, fun i s hi hs => ?_⟩
  obtain ⟨hlt, rfl⟩ := List.getElem?_eq_some_iff.1 hs
  simpa using hbefore i hi

/-- Without a distance no scope has the name. -/
theorem Scopes.of_distance?_none {scopes : Scopes} {name : String}
    (h : scopes.distance? name = none) : ∀ s ∈ scopes, s.names.find? name = none := by
  intro s hs
  simpa using List.findIdx?_eq_none_iff.1 h s hs

/-! ## Looking up -/

theorem lookUp_of_getAt? {m : Machine} {id : RefId} {name : Token} {d : Nat} {v : Value}
    (hd : m.distances.get? id = some d) (hv : m.store.getAt? m.chain d name.lexeme = some v) :
    Eval.lookUp id name m = .ok v m := by
  simp only [Eval.lookUp, Eval.get_bind, hd, hv]
  rfl

theorem lookUp_global {m : Machine} {id : RefId} {name : Token}
    (hd : m.distances.get? id = none) :
    Eval.lookUp id name m = Eval.orUndefined name (m.store.lookup? 0 name.lexeme) m := by
  simp only [Eval.lookUp, Eval.get_bind, hd, Store.get?, globalChain, List.findSome?_cons]
  cases m.store.lookup? 0 name.lexeme <;> rfl

/-- An access of a superclass, where the two frames it looks at have a class and an object. -/
theorem superMethod_eq {m : Machine} {id : RefId} {keyword : Token} {inner : Nat} {parent : Class}
    {x : Receiver} (hd : m.distances.get? id = some (inner + 1))
    (hparent : m.store.getAt? m.chain (inner + 1) keyword.lexeme = some (.class parent))
    (hobject : m.store.getAt? m.chain inner "this" = some x.object) (method : Token) :
    superMethod id keyword method m =
      match parent.method? method.lexeme with
      | some found => (Value.function <$> Eval.bindMethod found x.object) m
      | none => Eval.raise method (.undefinedProperty method.lexeme) m := by
  have hthis : (Token.ofName "this" keyword.line).lexeme = "this" := rfl
  simp only [superMethod, Eval.get_bind, hd, hparent, hthis, hobject, Eval.orUndefined, pure_bind,
    Receiver.object]
  cases parent.method? method.lexeme <;> rfl

/-! ## Frames and scopes -/

/-- A frame is opened for a scope and for no other one. -/
def OpenedFor (log : List Event) (scope : Scope) (frame : FrameId) : Prop :=
  ∀ scope', .opened scope' frame ∈ log ↔ scope' = scope

/-- What is true whenever a reference is read where the text has it. -/
structure ReadsAsWritten (log : List Event) (m : Machine) (site : Site) : Prop where
  /-- The distance that was recorded is the one in the text. -/
  distance : m.distances.get? site.reference.id = site.distance?
  /-- Each scope around the reference has its frame. -/
  frames : ∀ (i : Nat) (s : OpenScope), site.scopes[i]? = some s →
    ∃ frame, m.chain[i]? = some frame ∧ OpenedFor log s.scope frame
  /-- Around them there is nothing but the global frame. -/
  global : m.chain.drop site.scopes.length = globalChain
  /-- The distance leads to the frame of the innermost scope that has declared the name, the name is
      bound there, and reading it succeeds. -/
  bound : ∀ d : Nat, m.distances.get? site.reference.id = some d →
      ∃ (s : OpenScope) (frame : FrameId) (v : Value),
    site.scopes[d]? = some s ∧ (s.names.find? site.reference.token.lexeme).isSome ∧
      (∀ i s', i < d → site.scopes[i]? = some s' →
        s'.names.find? site.reference.token.lexeme = none) ∧
      m.chain[d]? = some frame ∧ OpenedFor log s.scope frame ∧
      m.store.lookup? frame site.reference.token.lexeme = some v ∧
      Eval.lookUp site.reference.id site.reference.token m = .ok v m
  /-- Without a distance no scope has declared the name, and only the global frame counts. -/
  free : m.distances.get? site.reference.id = none →
    (∀ s ∈ site.scopes, s.names.find? site.reference.token.lexeme = none) ∧
      Eval.lookUp site.reference.id site.reference.token m =
        Eval.orUndefined site.reference.token
          (m.store.lookup? 0 site.reference.token.lexeme) m
  /-- An access of a superclass fails at most for want of a method. -/
  super : site.reference.sort = .super → m.distances.get? site.reference.id ≠ none →
    ∀ method stop m', superMethod site.reference.id site.reference.token method m =
      .error stop m' → stop = .error (.runtime method (.undefinedProperty method.lexeme))

section

variable {K : Site → Prop} {μ : Moment} {log : List Event} {m : Machine} {next : Nat}

theorem openedFor (hlog : Numbered Event.frame? log next) {scope : Scope} {frame : FrameId}
    (h : .opened scope frame ∈ log) : OpenedFor log scope frame := by
  refine fun scope' => ⟨fun h' => ?_, fun heq => heq ▸ h⟩
  cases hlog.eq h' h rfl rfl
  rfl

/-- The name of a reference that is read is bound in the frame that its distance leads to. -/
theorem exists_bound {r : Reference} {owner : Option Receiver} {scopes : Scopes} {d : Nat}
    (hm : Mirrors ⟨log, m⟩ owner m.chain scopes) (hsort : r.sort ≠ .assign)
    (hright : Site.Right m.distances ⟨r, scopes⟩) (hd : Site.distance? ⟨r, scopes⟩ = some d) :
    ∃ frame v, m.chain[d]? = some frame ∧ m.store.lookup? frame r.token.lexeme = some v := by
  have hready : r.sort = .var ∨ r.sort = .superclass →
      ∃ frame v, m.chain[d]? = some frame ∧ m.store.lookup? frame r.token.lexeme = some v := by
    intro hsort
    obtain ⟨s, hs, -⟩ := (Scopes.of_distance? hd).1
    obtain ⟨frame, hframe, -, hbound⟩ := hm.frame hs
    obtain ⟨v, hv⟩ := Option.isSome_iff_exists.1 (hbound _ (hright.ready hsort d s hd hs))
    exact ⟨frame, v, hframe, hv⟩
  have hgetAt : ∀ {name v}, m.store.getAt? m.chain d name = some v →
      ∃ frame v, m.chain[d]? = some frame ∧ m.store.lookup? frame name = some v :=
    fun h => by
      obtain ⟨frame, hframe, hv⟩ := Option.bind_eq_some_iff.1 h
      exact ⟨frame, _, hframe, hv⟩
  have hspelled := hright.spelled
  obtain ⟨sort, id, token⟩ := r
  cases sort with
  | assign => exact absurd rfl hsort
  | var => exact hready (.inl rfl)
  | superclass => exact hready (.inr rfl)
  | this =>
    have hlexeme : token.lexeme = "this" := hspelled
    have hd : scopes.distance? token.lexeme = some d := hd
    dsimp only
    rw [hlexeme] at hd ⊢
    obtain ⟨x, -, hthis⟩ := hm.getAt?_this hd
    exact hgetAt hthis
  | super =>
    have hlexeme : token.lexeme = "super" := hspelled
    have hsort := hright.derived rfl (hd ▸ rfl)
    have hd : scopes.distance? token.lexeme = some d := hd
    dsimp only
    rw [hlexeme] at hd ⊢
    obtain ⟨inner, _, parent, rfl, -, -, -, hsuper⟩ := hm.getAt?_super hsort hd
    exact hgetAt hsuper

/-- What an access of a superclass gives: the method of the parent of the class that declares the
    running method, bound to the object to which that is bound. -/
theorem superMethod_of_mirrors {r : Reference} {owner : Option Receiver} {scopes : Scopes} {d : Nat}
    (hm : Mirrors ⟨log, m⟩ owner m.chain scopes) (hsort : r.sort = .super)
    (hright : Site.Right m.distances ⟨r, scopes⟩) (hd : m.distances.get? r.id = some d) :
    ∃ x parent, owner = some x ∧ HasParent log x.home parent ∧ ∀ method,
      superMethod r.id r.token method m =
        match parent.method? method.lexeme with
        | some found => (Value.function <$> Eval.bindMethod found x.object) m
        | none => Eval.raise method (.undefinedProperty method.lexeme) m := by
  have hspelled : r.token.lexeme = "super" := by
    have := hright.spelled
    rw [Reference.Spelled, hsort] at this
    exact this
  have hdistance : Site.distance? ⟨r, scopes⟩ = some d := hright.distance.symm.trans hd
  have hderived := hright.derived hsort (hdistance ▸ rfl)
  rw [Site.distance?, hspelled] at hdistance
  obtain ⟨inner, x, parent, rfl, hx, hparent, hobject, hsuper⟩ := hm.getAt?_super hderived hdistance
  refine ⟨x, parent, hx, hparent, superMethod_eq hd ?_ hobject⟩
  rw [hspelled]
  exact hsuper

theorem ReadsAt.asWritten {r : Reference} {running : Option Closure}
    (h : ReadsAt K log r m running) (hlog : Numbered Event.frame? log next) :
    ∃ scopes, K ⟨r, scopes⟩ ∧ ReadsAsWritten log m ⟨r, scopes⟩ := by
  obtain ⟨hsort, owner, scopes, hknown, hright, hm, -⟩ := h
  refine ⟨scopes, hknown, hright.distance, fun i s hs => ?_, hm.global_frame, fun d hd => ?_,
    fun hnone => ⟨?_, lookUp_global hnone⟩, fun hsuper hsome method stop m' hstop => ?_⟩
  · obtain ⟨frame, hframe, hopened, -⟩ := hm.frame hs
    exact ⟨frame, hframe, openedFor hlog hopened⟩
  · have hdistance := hright.distance.symm.trans hd
    obtain ⟨⟨s, hs, hfound⟩, hbefore⟩ := Scopes.of_distance? hdistance
    obtain ⟨frame, hframe, hopened, -⟩ := hm.frame hs
    obtain ⟨frame', v, hframe', hv⟩ := exists_bound hm hsort hright hdistance
    cases hframe.symm.trans hframe'
    have hgetAt : m.store.getAt? m.chain d r.token.lexeme = some v := by
      rw [Store.getAt?, hframe]
      exact hv
    exact ⟨s, frame, v, hs, hfound, hbefore, hframe, openedFor hlog hopened, hv,
      lookUp_of_getAt? hd hgetAt⟩
  · exact Scopes.of_distance?_none (hright.distance.symm.trans hnone)
  · obtain ⟨d, hd⟩ := Option.ne_none_iff_exists'.1 hsome
    obtain ⟨x, parent, -, -, hresult⟩ := superMethod_of_mirrors hm hsuper hright hd
    rw [hresult] at hstop
    cases hmethod : parent.method? method.lexeme with
    | some found =>
      rw [hmethod] at hstop
      cases hstop
    | none =>
      rw [hmethod] at hstop
      cases hstop
      rfl

end

/-! ## Sessions -/

/-- Two sites of a valid record with the same identity are the same. -/
theorem Record.Valid.site_eq {record : Record} (h : record.Valid) {site site' : Site}
    (hsite : site ∈ record.sites) (hsite' : site' ∈ record.sites)
    (hid : site.reference.id = site'.reference.id) : site = site' :=
  List.inj_on_of_nodup_map h.nodup hsite hsite' hid

/-- **Static distance is dynamic distance.** Whatever is done with a session, each read of a name
    happens at one site of a source that was run, and finds the frames of the scopes that stand around
    the site in the text. -/
theorem reads_as_written (output : Output) (reading : Nat → Float) (steps : List Step) :
    (Record.of output reading steps).session = (Session.start output reading).after steps ∧
      ∀ r m running, .read r m running ∈ (Record.of output reading steps).log →
        ∃ site ∈ (Record.of output reading steps).sites, site.reference = r ∧
          (∀ site' ∈ (Record.of output reading steps).sites,
            site'.reference.id = r.id → site' = site) ∧
          ReadsAsWritten (Record.of output reading steps).log m site := by
  refine ⟨Record.session_of output reading steps, fun r m running h => ?_⟩
  have hvalid := Record.valid_of output reading steps
  obtain ⟨scopes, hsite, hwritten⟩ := (hvalid.sound.events _ h).asWritten hvalid.sound.frames
  exact ⟨⟨r, scopes⟩, hsite, rfl, fun site' hsite' hid => hvalid.site_eq hsite' hsite hid, hwritten⟩

/-- A variable that is read one scope further in, by a function that outlives its block. -/
def escapingFunction : List Step :=
  [.run 20 (bytesOf "var g;\x7bvar a;fun f()\x7ba;\x7dg=f;\x7d"), .run 20 (bytesOf "g();")]

/-- The read happens, at a distance of one. -/
theorem reads_as_written_escapingFunction :
    ∃ r m running, .read r m running ∈ (Record.of (.start none false) (fun _ => 0) escapingFunction).log ∧
      m.distances.get? r.id = some 1 ∧ ∃ site, site.reference = r ∧
        ReadsAsWritten (Record.of (.start none false) (fun _ => 0) escapingFunction).log m site := by
  have hread : ((Record.of (.start none false) (fun _ => 0) escapingFunction).log.any fun e =>
      match e with
      | .read r m _ => m.distances.get? r.id == some 1
      | _ => false) = true := by decide +kernel
  obtain ⟨e, he, hread⟩ := List.any_eq_true.1 hread
  cases e with
  | read r m running =>
    obtain ⟨site, -, hsite, -, hwritten⟩ := (reads_as_written _ _ _).2 r m running he
    exact ⟨r, m, running, he, by simpa using hread, site, hsite, hwritten⟩
  | _ => exact nomatch hread

end Lox
