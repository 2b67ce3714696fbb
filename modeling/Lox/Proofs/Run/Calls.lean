import Lox.Proofs.Run.Steps

set_option autoImplicit false

/-! # Names, calls and classes keep the invariant

The parts of the evaluator that read names and make classes, and those that call functions, given
that the statements of their bodies keep the invariant (`Executes`). -/

namespace Lox

open Noted

variable {K : Site → Prop} {μ μ' : Moment} {running : Option Closure} {scopes : Scopes}

/-! ## Where a run stands -/

/-- The current chain mirrors the scopes of the text, and the running function belongs to the
    receiver around them. -/
def Stands (μ : Moment) (running : Option Closure) (scopes : Scopes) : Prop :=
  ∃ owner, Mirrors μ owner μ.machine.chain scopes ∧
    ∀ x, owner = some x → ∃ f, running = some f ∧ Owner μ.log f x

theorem Stands.leads (h : Stands μ running scopes) (hl : μ.Leads μ') :
    Stands μ' running scopes := by
  obtain ⟨owner, hm, ho⟩ := h
  refine ⟨owner, ?_, fun x hx => ?_⟩
  · rw [hl.chain]
    exact hm.grows hl.toGrows
  · obtain ⟨f, hf, ho⟩ := ho x hx
    exact ⟨f, hf, ho.mono hl.log⟩

theorem Scopes.Open.put (h : scopes.Open) (name : String) (ready : Bool) :
    (scopes.put name ready).Open := by
  cases scopes with
  | nil => exact h
  | cons s outer => exact fun s' hs' => by cases hs'; exact h s rfl

theorem Scopes.Open.after (h : scopes.Open) (s : Stmt) : (s.after scopes).Open := by
  cases s <;> first | exact h.put _ _ | exact h

/-! ## Names -/

theorem Stands.standsAt (h : Stands μ running scopes) {r : Reference} (hr : K ⟨r, scopes⟩)
    (hs : μ.Sound K) : StandsAt K μ.log r μ.machine running := by
  obtain ⟨owner, hm, ho⟩ := h
  exact ⟨owner, scopes, hr, hs.right _ hr, hm, ho⟩

theorem Stands.readsAt (h : Stands μ running scopes) {r : Reference} (hr : K ⟨r, scopes⟩)
    (hsort : r.sort ≠ .assign) (hs : μ.Sound K) : ReadsAt K μ.log r μ.machine running :=
  ⟨hsort, h.standsAt hr hs⟩

theorem keeps_lookUp (h : Stands μ running scopes) {r : Reference} (hr : K ⟨r, scopes⟩)
    (hsort : r.sort ≠ .assign) : Keeps K μ (lookUp running r) fun v μ' => v.Fits K μ' := by
  refine (keeps_noteRead (h.readsAt hr hsort)).bind fun _ μ₁ _ hs _ => ?_
  unfold Eval.lookUp
  simp only [lift_bind]
  refine .lift_get <| (keeps_orUndefined fun _ _ => ⟨_, hr, rfl⟩).mono fun v μ₂ hl _ hv => ?_
  have hfound : ∃ frame, μ₁.lookup? frame r.token.lexeme = some v := by
    split at hv
    · exact Store.lookup?_of_getAt? hv
    · exact Store.lookup?_of_get? hv
  obtain ⟨frame, hv⟩ := hfound
  exact (hs.values _ _ _ hv).leads hl

/-- Where statements stand there is a frame to bind names in. -/
theorem Mirrors.head {owner : Option Receiver} {chain : Chain} (hm : Mirrors μ owner chain scopes)
    (hs : μ.Sound K) : ∃ frame outer, chain = frame :: outer ∧
      frame < μ.machine.store.frames.size := by
  cases hm with
  | global => exact ⟨0, [], rfl, hs.global⟩
  | plain _ _ hopened => exact ⟨_, _, rfl, hs.frames.below _ hopened _ rfl⟩
  | method _ _ _ hopened => exact ⟨_, _, rfl, hs.frames.below _ hopened _ rfl⟩
  | derivedMethod _ _ _ _ _ hopened => exact ⟨_, _, rfl, hs.frames.below _ hopened _ rfl⟩

/-- A value may be bound that fits once its name is ready. -/
theorem keeps_define (h : Stands μ running scopes) (hscopes : scopes.Open) {name : String}
    (hname : Chosen name) {v : Value}
    (hv : ∀ μ', μ.Leads μ' → Stands μ' running (scopes.put name true) → v.Fits K μ') :
    Keeps K μ (lift (Eval.define name v)) fun _ μ' =>
      Stands μ' running (scopes.put name true) := by
  intro hs
  obtain ⟨owner, hm, ho⟩ := h
  obtain ⟨frame, outer, hchain, hframe⟩ := hm.head hs
  have hrun : lift (Eval.define name v) μ = .ok () (μ.binding frame name v) := by
    show EStateM.Result.ok () { μ with machine :=
      { μ.machine with store := μ.machine.store.define μ.machine.chain name v } } = _
    rw [hchain]
    rfl
  have hl := μ.leads_binding frame hname v
  have hstands : Stands (μ.binding frame name v) running (scopes.put name true) := by
    refine ⟨owner, ?_, fun x hx => ?_⟩
    · refine ((hm.grows hl.toGrows).put_true hscopes hname) fun frame' hframe' => ?_
      rw [hchain] at hframe'
      cases hframe'
      exact μ.lookup?_binding hframe name v
    · obtain ⟨f, hf, ho⟩ := ho x hx
      exact ⟨f, hf, ho.mono hl.log⟩
  rw [hrun]
  exact ⟨hl, hs.binding hname (hv _ hl hstands), hstands⟩

/-! ## Methods -/

theorem Class.of_home? {c : Class} {name : String} {home : ClassBody} {method : Method}
    (h : c.home? name = some (home, method)) :
    home ∈ c.lineage ∧ home.methods.find? name = some method := by
  obtain ⟨body, hbody, h⟩ := List.exists_of_findSome?_eq_some h
  obtain ⟨found, hfound, heq⟩ := Option.map_eq_some_iff.1 h
  cases heq
  exact ⟨hbody, hfound⟩

/-- A method of a class that fits can be bound to an object that fits. -/
theorem keeps_bindHome {c origin : Class} {identity : Nat} {name : String} {home : ClassBody}
    {method : Method} (hc : c.Fits K μ) (hobject : origin.Fits K μ)
    (h : c.home? name = some (home, method)) :
    Keeps K μ (bindMethod ⟨identity, origin, home⟩ method) fun f μ' =>
      f.Fits K μ' ∧ f.definition = method.definition := by
  obtain ⟨hhome, hfind⟩ := Class.of_home? h
  exact keeps_bindMethod (hc.methods home hhome name method hfind) hobject hfind

theorem keeps_getProperty {identity : Nat} {c : Class} (hc : c.Fits K μ) (name : Token) :
    Keeps K μ (getProperty identity c name) fun v μ' => v.Fits K μ' := by
  refine .get ?_
  split
  · next v hv => exact fun hs => ⟨.refl μ, hs, hs.fields identity name.lexeme v hv⟩
  · split
    · next home method hhome =>
      exact (keeps_bindHome hc hc hhome).bind fun f μ' _ _ hf => .pure hf.1
    · exact keeps_raise _ _ _ (by simp)

/-- The value of a name that is looked up in a frame where it is known. -/
theorem keeps_orUndefined_some {name : Token} {o : Option Value} {v : Value} (h : o = some v) :
    Keeps K μ (lift (Eval.orUndefined name o)) fun w _ => w = v :=
  (keeps_orUndefined fun hnone => nomatch h.symm.trans hnone).mono
    fun _ _ _ _ hw => Option.some.inj (hw.symm.trans h)

theorem keeps_superMethod (h : Stands μ running scopes) {id : RefId} {keyword : Token}
    (hr : K ⟨⟨.super, id, keyword⟩, scopes⟩) (method : Token) :
    Keeps K μ (Noted.superMethod running id keyword method) fun v μ' => v.Fits K μ' := by
  refine (keeps_noteRead (h.readsAt hr nofun)).bind fun _ μ₁ hl₁ hs _ => .get ?_
  have hright := hs.right _ hr
  obtain ⟨owner, hm, -⟩ := h.leads hl₁
  have hspelled : keyword.lexeme = "super" := hright.spelled
  have hdistance : μ₁.machine.distances.get? id = scopes.distance? "super" := by
    rw [← hspelled]
    exact hright.distance
  dsimp only
  rw [hdistance]
  cases hd : scopes.distance? "super" with
  | none => exact keeps_raise _ _ _ (by simp)
  | some d =>
    have hsort : scopes.classSort = .derived :=
      hright.derived rfl (by rw [Site.distance?, hspelled, hd]; rfl)
    obtain ⟨inner, r, parent, rfl, -, -, hobject, hparent⟩ := hm.getAt?_super hsort hd
    obtain ⟨_, hthis⟩ := Store.lookup?_of_getAt? hobject
    obtain ⟨_, hsuper⟩ := Store.lookup?_of_getAt? hparent
    rw [← hspelled] at hparent
    refine (keeps_orUndefined_some hparent).bind fun _ μ₂ hl₂ _ heq => ?_
    subst heq
    refine (keeps_orUndefined_some hobject).bind fun _ μ₃ hl₃ _ heq => ?_
    subst heq
    have hl := hl₂.trans hl₃
    have hfits : parent.Fits K μ₃ := (hs.values _ _ _ hsuper).leads hl
    have horigin : r.origin.Fits K μ₃ := (hs.values _ _ _ hthis).leads hl
    dsimp only [Receiver.object]
    split
    · next home found hhome =>
      exact (keeps_bindHome hfits horigin hhome).bind fun f _ _ _ hf => .pure hf.1
    · exact keeps_raise _ _ _ (by simp)

/-! ## Methods by name -/

/-- The last of some definitions that has a name. -/
def lastNamed? (definitions : List FunctionDef) (name : String) : Option FunctionDef :=
  definitions.reverse.find? (·.name.lexeme == name)

theorem lastNamed?_cons (f : FunctionDef) (definitions : List FunctionDef) (name : String) :
    lastNamed? (f :: definitions) name =
      (lastNamed? definitions name).or (if f.name.lexeme = name then some f else none) := by
  simp only [lastNamed?, List.reverse_cons, List.find?_append, List.find?_singleton, beq_iff_eq]

theorem find?_methodsOf (chain : Chain) (definitions : List FunctionDef) (name : String) :
    (methodsOf chain definitions).find? name =
      (lastNamed? definitions name).map (⟨·, chain⟩) := by
  have hall : ∀ (fs : List FunctionDef) (methods : Bindings Method),
      (fs.foldl (fun methods f => methods.bind f.name.lexeme ⟨f, chain⟩) methods).find? name =
        ((lastNamed? fs name).map (⟨·, chain⟩)).or (methods.find? name) := by
    intro fs
    induction fs with
    | nil => exact fun _ => rfl
    | cons f fs ih =>
      intro methods
      rw [List.foldl_cons, ih, Bindings.find?_bind, lastNamed?_cons]
      cases lastNamed? fs name with
      | some g => rfl
      | none =>
        by_cases hname : f.name.lexeme = name
        · simp [hname]
        · simp [hname, Ne.symm hname]
  exact (hall definitions []).trans (Option.or_none ..)

/-- The methods of a class are those declared. -/
theorem of_find?_methodsOf {chain : Chain} {definitions : List FunctionDef} {name : String}
    {m : Method} (h : (methodsOf chain definitions).find? name = some m) :
    m.chain = chain ∧ m.definition ∈ definitions := by
  rw [find?_methodsOf] at h
  obtain ⟨f, hlast, rfl⟩ := Option.map_eq_some_iff.1 h
  exact ⟨rfl, List.mem_reverse.1 (List.mem_of_find?_eq_some hlast)⟩

/-! ## Classes -/

theorem keeps_superclassValue (h : Stands μ running scopes) {s : Superclass}
    (hr : K ⟨⟨.superclass, s.id, s.name⟩, scopes⟩) :
    Keeps K μ (Noted.superclassValue running s) fun c μ' => c.Fits K μ' := by
  refine (keeps_lookUp h hr nofun).bind fun v μ' _ _ hv => ?_
  cases v with
  | «class» c => exact .pure hv
  | _ => exact keeps_raise _ _ _ (by simp)

theorem keeps_makeClass {name : Token} (hname : Chosen name.lexeme) {methods : List FunctionDef}
    {chain : Chain} {parent : Option Class} (hparent : ∀ p, parent = some p → p.Fits K μ)
    (hmethods : ∀ μ' body, μ.Leads μ' → .made body methods parent ∈ μ'.log →
      ∀ f ∈ methods, Method.Fits K μ' body ⟨f, chain⟩) :
    Keeps K μ (makeClass name methods chain parent) fun _ _ => True := by
  let body : ClassBody := ⟨μ.machine.nextIdentity, name.lexeme, methodsOf chain methods⟩
  let made : Event := .made body methods parent
  let c : Class := ⟨body, (parent.map Class.lineage).getD []⟩
  have hl := μ.leads_making made
  have hmade : made ∈ (μ.making made).log := μ.mem_log_making made
  have hevent : made.Fits K (μ.making made).log :=
    ⟨⟨chain, rfl⟩, fun p hp => (hparent p hp).made.mono hl.log⟩
  have hc : c.Fits K (μ.making made) := by
    constructor
    · cases parent with
      | none => exact .root hmade
      | some p => exact .derived hmade ((hparent p rfl).made.mono hl.log)
    · intro b hb n m hm
      rcases List.mem_cons.1 hb with rfl | hb
      · obtain ⟨hchain, hmem⟩ := of_find?_methodsOf hm
        have hfits := hmethods _ body hl hmade m.definition hmem
        rw [← hchain] at hfits
        exact hfits
      · cases parent with
        | none => exact nomatch hb
        | some p => exact ((hparent p rfl).methods b hb n m hm).mono (fun _ h => h) hl.toGrows
  have hstep : Keeps K μ (lift Eval.freshIdentity >>= fun identity => note (.made
      ⟨identity, name.lexeme, methodsOf chain methods⟩ methods parent)) fun _ μ' =>
      μ' = μ.making made :=
    .of_ok rfl hl (fun hs => hs.making rfl rfl hevent) fun _ => rfl
  have hclass : Keeps K (μ.making made) (lift (Eval.assignInnermost name (.class c)))
      fun _ _ => True :=
    keeps_assignInnermost hname (show Value.Fits K _ (.class c) from hc)
  have hall : Keeps K μ (_ >>= fun _ => lift (Eval.assignInnermost name (.class c)))
      fun _ _ => True :=
    hstep.bind fun _ μ' _ _ heq => by
      rw [heq]
      exact hclass
  exact hall.congr rfl

/-- A class declaration binds its name. -/
theorem keeps_declareClass (h : Stands μ running scopes) (hscopes : scopes.Open) {name : Token}
    {superclass : Option Superclass} {methods : List FunctionDef} {inFunction inLoop : Bool}
    (hc : Stmt.Checked K scopes inFunction inLoop (.classDef name superclass methods)) :
    Keeps K μ (Noted.declareClass running name superclass methods) fun _ μ' =>
      Stands μ' running (scopes.put name.lexeme true) := by
  cases superclass with
  | none =>
    obtain ⟨hname, hmethods⟩ := hc
    refine (keeps_define (v := .nil) h hscopes hname fun _ _ _ => trivial).bind
      fun _ μ₁ _ _ h₁ => .get ?_
    obtain ⟨owner, hm, -⟩ := id h₁
    refine (keeps_makeClass hname ?_ fun μ' body hl _ f hf => ?_).mono fun _ μ' hl _ _ =>
      h₁.leads hl
    · exact fun _ (hp : none = some _) => nomatch hp
    · exact .plain (hm.grows hl.toGrows) (hscopes.put _ _) (checked_of_mem_methods hmethods hf)
  | some s =>
    obtain ⟨hname, hclause, hmethods⟩ := hc
    have hclause' : Stands μ running (scopes.put name.lexeme false) := by
      obtain ⟨owner, hm, ho⟩ := h
      exact ⟨owner, hm.put_false hscopes hname, ho⟩
    refine (keeps_superclassValue hclause' hclause).bind fun parent μ₁ hl₁ _ hparent => ?_
    refine (keeps_define (v := .nil) (h.leads hl₁) hscopes hname fun _ _ _ => trivial).bind
      fun _ μ₂ hl₂ _ h₂ => .get ?_
    have hparent : Value.Fits K μ₂ (.class parent) :=
      Value.Fits.leads (v := .class parent) hparent hl₂
    refine (keeps_openScope (.parent s) _ (by simpa using hparent)).bind
      fun chain μ₃ hl₃ _ hopened => ?_
    obtain ⟨rfl, rfl⟩ := hopened
    obtain ⟨owner, hm, -⟩ := id h₂
    refine (keeps_makeClass hname ?_ fun μ' body hl hmade f hf => ?_).mono fun _ μ' hl _ _ =>
      (h₂.leads hl₃).leads hl
    · rintro p hp
      cases hp
      exact Value.Fits.leads (v := .class parent) hparent hl₃
    · have hl' := hl₃.trans hl
      refine .derived (hm.grows hl'.toGrows) (hl.log _ ?_) (hl.reserved _ _ not_chosen_super _ ?_)
        ⟨methods, hmade⟩ (checked_of_mem_methods hmethods hf)
      · simp [Moment.opening]
      · exact μ₂.lookup?_opening_one _ _ _

end Lox
