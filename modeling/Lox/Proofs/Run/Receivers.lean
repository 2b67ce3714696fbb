import Lox.Proofs.Run.Reads

set_option autoImplicit false

/-! # What `this` and `super` mean

Wherever a method was stored, passed to and called from, `this` in it is the object to which it was
bound (`Owner`), and `super` starts at the class that the superclass clause gave when the class
around the method was declared (`HasParent`). From there the nearest class counts that declares the
method, and in it the last declaration (`Nearest`). -/

namespace Lox

/-! ## Methods of classes -/

section

variable (log : List Event)

/-- The declaration of a class has a method of a name: the last one that it declares. -/
def Declares (name : String) (body : ClassBody) (f : FunctionDef) : Prop :=
  ∃ definitions parent, .made body definitions parent ∈ log ∧
    lastNamed? definitions name = some f

/-- The declaration of a class has no method of a name. -/
def Lacks (name : String) (body : ClassBody) : Prop :=
  ∃ definitions parent, .made body definitions parent ∈ log ∧
    ∀ f ∈ definitions, f.name.lexeme ≠ name

/-- The nearest of some classes that has a method of a name, and that method. -/
inductive Nearest (name : String) : List ClassBody → Option (ClassBody × FunctionDef) → Prop where
  | none : Nearest name [] none
  | here {body f rest} : Declares log name body f → Nearest name (body :: rest) (some (body, f))
  | further {body rest found} : Lacks log name body → Nearest name rest found →
      Nearest name (body :: rest) found

end

section

variable {log : List Event}

/-- Each class of a lineage was made by its declaration. -/
theorem Class.Made.exists_made {c : Class} (h : c.Made log) :
    ∀ body ∈ c.lineage, ∃ definitions parent, .made body definitions parent ∈ log := by
  induction h with
  | root hmade =>
    intro body hbody
    obtain rfl := List.mem_singleton.1 hbody
    exact ⟨_, _, hmade⟩
  | derived hmade _ ih =>
    intro body hbody
    rcases List.mem_cons.1 hbody with rfl | hbody
    · exact ⟨_, _, hmade⟩
    · exact ih body hbody

/-- Looking up a method goes through the declarations of the classes. -/
theorem Class.Made.nearest {K : Site → Prop} {c : Class} (h : c.Made log)
    (hlog : ∀ e ∈ log, e.Fits K log) (name : String) :
    Nearest log name c.lineage ((c.home? name).map fun p => (p.1, p.2.definition)) := by
  have hall : ∀ bodies : List ClassBody,
      (∀ body ∈ bodies, ∃ definitions parent, .made body definitions parent ∈ log) →
        Nearest log name bodies ((bodies.findSome? fun body =>
          (body.methods.find? name).map (body, ·)).map fun p => (p.1, p.2.definition)) := by
    intro bodies
    induction bodies with
    | nil => exact fun _ => .none
    | cons body rest ih =>
      intro hmade
      obtain ⟨definitions, parent, hbody⟩ := hmade body List.mem_cons_self
      obtain ⟨⟨chain, hmethods⟩, -⟩ := hlog _ hbody
      have hrest := ih fun body hbody => hmade body (List.mem_cons_of_mem _ hbody)
      rw [List.findSome?_cons, hmethods, find?_methodsOf]
      cases hlast : lastNamed? definitions name with
      | some f => exact .here ⟨definitions, parent, hbody, hlast⟩
      | none =>
        refine .further ⟨definitions, parent, hbody, fun f hf => ?_⟩ hrest
        simpa using List.find?_eq_none.1 hlast f (List.mem_reverse.2 hf)
  exact hall c.lineage h.exists_made

end

/-! ## Binding -/

/-- A function with the definition of a method, whose innermost frame has an object as `this`. -/
structure Closure.BoundTo (f : Closure) (definition : FunctionDef) (object : Value) (m : Machine) :
    Prop where
  body : f.definition = definition
  initializes : f.isInitializer = definition.isInitializer
  this : m.store.getAt? f.chain 0 "this" = some object

theorem bindMethod_boundTo (found : Method) (object : Value) (m : Machine) :
    ∃ f m', Eval.bindMethod found object m = .ok f m' ∧ f.BoundTo found.definition object m' := by
  refine ⟨_, _, rfl, rfl, rfl, ?_⟩
  simp [Store.getAt?, Store.define, Store.lookup?_bindIn]

section

variable {α β : Type} {μ μ' : Moment}

theorem of_bind_ok {step : Noting α} {k : α → Noting β} {b : β}
    (h : (step >>= k) μ = .ok b μ') : ∃ a μ₁, step μ = .ok a μ₁ ∧ k a μ₁ = .ok b μ' := by
  simp only [Bind.bind, EStateM.bind] at h
  cases hstep : step μ with
  | ok a μ₁ =>
    rw [hstep] at h
    exact ⟨a, μ₁, rfl, h⟩
  | error stop μ₁ =>
    rw [hstep] at h
    cases h

theorem of_orUndefined_ok {name : Token} {found : Option α} {a : α}
    (h : Noted.lift (Eval.orUndefined name found) μ = .ok a μ') : found = some a ∧ μ' = μ := by
  cases found <;> cases h
  exact ⟨rfl, rfl⟩

end

theorem noted_bindMethod (x : Receiver) (found : Method) (μ : Moment) :
    ∃ f μ', Noted.bindMethod x found μ = .ok f μ' ∧
      f.BoundTo found.definition x.object μ'.machine ∧ .bound f x ∈ μ'.log ∧
      μ'.machine.objects = μ.machine.objects := by
  refine ⟨_, _, rfl, ⟨rfl, rfl, ?_⟩, List.mem_append_right _ (List.mem_singleton_self _), rfl⟩
  simp [Store.getAt?, Store.define, Store.lookup?_bindIn]

theorem noted_getProperty {identity : Nat} {c : Class} {name : Token} {μ μ' : Moment} {v : Value}
    (h : Noted.getProperty identity c name μ = .ok v μ') :
    μ.field? identity name.lexeme = some v ∨
      ∃ home found f, c.home? name.lexeme = some (home, found) ∧ v = .function f ∧
        f.BoundTo found.definition (.object identity c) μ'.machine ∧
        .bound f ⟨identity, c, home⟩ ∈ μ'.log := by
  simp only [Noted.getProperty, Noted.get_bind] at h
  cases hfield : μ.machine.objects[identity]?.bind (·.find? name.lexeme) with
  | some w =>
    rw [hfield] at h
    cases h
    exact .inl hfield
  | none =>
    rw [hfield] at h
    cases hhome : c.home? name.lexeme with
    | none =>
      rw [hhome] at h
      cases h
    | some p =>
      obtain ⟨home, found⟩ := p
      obtain ⟨f, μ₁, hbind, hf, hlog, -⟩ := noted_bindMethod ⟨identity, c, home⟩ found μ
      simp only [hhome, Bind.bind, EStateM.bind, hbind] at h
      cases h
      exact .inr ⟨home, found, f, rfl, rfl, hf, hlog⟩

theorem noted_construct {run : Option Closure → Stmt → Noting Flow} {c : Class}
    {arguments : List Value} {home : ClassBody} {found : Method} (μ : Moment)
    (h : c.home? initializerName = some (home, found)) :
    ∃ f μ', μ'.machine.objects = μ.machine.objects.push [] ∧
      f.BoundTo found.definition (.object μ.machine.objects.size c) μ'.machine ∧
      .bound f ⟨μ.machine.objects.size, c, home⟩ ∈ μ'.log ∧
      Noted.construct run c arguments μ = (Noted.callFunction run f arguments >>= fun _ =>
        pure (.object μ.machine.objects.size c)) μ' := by
  let μ₁ : Moment := { μ with machine := { μ.machine with objects := μ.machine.objects.push [] } }
  obtain ⟨f, μ', hbind, hf, hlog, hobjects⟩ :=
    noted_bindMethod ⟨μ.machine.objects.size, c, home⟩ found μ₁
  refine ⟨f, μ', hobjects, hf, hlog, ?_⟩
  have hobject : Noted.lift (Eval.newObject c) μ = .ok (.object μ.machine.objects.size c) μ₁ := rfl
  simp only [Noted.construct, Noted.get_bind]
  simp only [Bind.bind, EStateM.bind, hobject, h, hbind]

theorem noted_superMethod {running : Option Closure} {id : RefId} {keyword method : Token}
    {μ μ' : Moment} {v : Value}
    (h : Noted.superMethod running id keyword method μ = .ok v μ') :
    ∃ (x : Receiver) (inner : Nat) (parent : Class) (found : Method) (f : Closure),
      μ.machine.store.getAt? μ.machine.chain (inner + 1) keyword.lexeme = some (.class parent) ∧
      μ.machine.store.getAt? μ.machine.chain inner "this" = some x.object ∧
      parent.home? method.lexeme = some (x.home, found) ∧ v = .function f ∧
      f.BoundTo found.definition x.object μ'.machine ∧ .bound f x ∈ μ'.log := by
  obtain ⟨_, μ₁, hread, h⟩ := of_bind_ok h
  cases hread
  obtain ⟨_, _, hget, h⟩ := of_bind_ok h
  cases hget
  cases hd : μ.machine.distances.get? id with
  | none =>
    simp only [hd] at h
    cases h
  | some d =>
    simp only [hd] at h
    obtain ⟨p, _, hlift, h⟩ := of_bind_ok h
    obtain ⟨hparent, rfl⟩ := of_orUndefined_ok hlift
    cases d with
    | zero => cases h
    | succ inner =>
      obtain ⟨o, _, hlift, h⟩ := of_bind_ok h
      obtain ⟨hobject, rfl⟩ := of_orUndefined_ok hlift
      cases p with
      | «class» parent =>
        cases o with
        | object identity origin =>
          cases hhome : parent.home? method.lexeme with
          | none =>
            simp only [hhome] at h
            cases h
          | some found =>
            simp only [hhome] at h
            let x : Receiver := ⟨identity, origin, found.1⟩
            obtain ⟨f, _, hbind', h⟩ := of_bind_ok h
            obtain ⟨f, μ₂, hbind, hf, hlog, -⟩ := noted_bindMethod x found.2 _
            cases hbind.symm.trans hbind'
            cases h
            exact ⟨x, inner, parent, found.2, f, hparent, hobject, hhome, rfl, hf, hlog⟩
        | _ => cases h
      | _ => cases h

/-- What methods are bound to. -/
structure BindsReceivers : Prop where
  /-- A property of an object that is no field is a method that is bound to the object. -/
  property : ∀ {identity c name μ μ' v}, Noted.getProperty identity c name μ = .ok v μ' →
    μ.field? identity name.lexeme = some v ∨
      ∃ home found f, c.home? name.lexeme = some (home, found) ∧ v = .function f ∧
        f.BoundTo found.definition (.object identity c) μ'.machine ∧
        .bound f ⟨identity, c, home⟩ ∈ μ'.log
  /-- A method of the superclass is bound to the object that is `this` just inside the scope in
      which the superclass was found. -/
  super : ∀ {running id keyword method μ μ' v},
    Noted.superMethod running id keyword method μ = .ok v μ' →
      ∃ (x : Receiver) (inner : Nat) (parent : Class) (found : Method) (f : Closure),
        μ.machine.store.getAt? μ.machine.chain (inner + 1) keyword.lexeme = some (.class parent) ∧
        μ.machine.store.getAt? μ.machine.chain inner "this" = some x.object ∧
        parent.home? method.lexeme = some (x.home, found) ∧ v = .function f ∧
        f.BoundTo found.definition x.object μ'.machine ∧ .bound f x ∈ μ'.log
  /-- The initializer of a class is bound to the new object, and then called. -/
  initializer : ∀ {run c arguments home found μ}, c.home? initializerName = some (home, found) →
    ∃ f μ', μ'.machine.objects = μ.machine.objects.push [] ∧
      f.BoundTo found.definition (.object μ.machine.objects.size c) μ'.machine ∧
      .bound f ⟨μ.machine.objects.size, c, home⟩ ∈ μ'.log ∧
      Noted.construct run c arguments μ = (Noted.callFunction run f arguments >>= fun _ =>
        pure (.object μ.machine.objects.size c)) μ'

theorem bindsReceivers : BindsReceivers :=
  ⟨noted_getProperty, noted_superMethod, noted_construct _⟩

/-! ## Reads -/

/-- The receiver of the function that is running where a reference is read. -/
structure RunsFor (log : List Event) (site : Site) (running : Option Closure) (x : Receiver) :
    Prop where
  /-- The running function belongs to this receiver and to no other one. -/
  owner : ∃ f, running = some f ∧ Owner log f x ∧ ∀ x', Owner log f x' → x' = x
  /-- The innermost method around the site in the text is one of the class that is the home. -/
  home : ∃ g, site.scopes.method? = some g ∧ x.home.Has g

/-- What an access of a method by `super` gives. -/
structure Accesses (log : List Event) (m : Machine) (site : Site) (x : Receiver) (parent : Class) :
    Prop where
  /-- The class is the one that the superclass clause gave when the home was declared. -/
  clause : HasParent log x.home parent
  unique : ∀ parent', HasParent log x.home parent' → parent' = parent
  made : parent.Made log
  /-- The nearest method from there on, bound to the object, or an error if there is none. -/
  result : ∀ method : Token,
    (∃ home definition f m', Nearest log method.lexeme parent.lineage (some (home, definition)) ∧
      superMethod site.reference.id site.reference.token method m = .ok (.function f) m' ∧
      f.BoundTo definition x.object m') ∨
    (Nearest log method.lexeme parent.lineage none ∧
      superMethod site.reference.id site.reference.token method m =
        .error (.error (.runtime method (.undefinedProperty method.lexeme))) m)

section

variable {record : Record} {site : Site} {m : Machine} {running : Option Closure}

/-- In a class, a read happens while a function runs that belongs to a receiver. -/
theorem Record.Valid.runsFor (h : record.Valid) (hsite : site ∈ record.programSites)
    (hread : .read site.reference m running ∈ record.log)
    (hclass : site.scopes.classSort ≠ .noClass) :
    ∃ x, RunsFor record.log site running x ∧ Mirrors ⟨record.log, m⟩ (some x) m.chain site.scopes ∧
      site.Right m.distances := by
  obtain ⟨-, owner, scopes, hknown, hright, hm, howner⟩ := h.sound.events _ hread
  have hsame : (⟨site.reference, scopes⟩ : Site) = site :=
    h.site_eq hknown (List.mem_append_left _ hsite) rfl
  obtain rfl : scopes = site.scopes := congrArg Site.scopes hsame
  obtain ⟨d, hd⟩ := Option.isSome_iff_exists.1 (hm.distance?_this hclass)
  obtain ⟨x, rfl, -⟩ := hm.getAt?_this hd
  obtain ⟨f, hf, ho⟩ := howner x rfl
  exact ⟨x, ⟨⟨f, hf, ho, fun x' ho' => ho'.unique h.sound.identities ho⟩, hm.method? x rfl⟩, hm,
    hright⟩

theorem Record.Valid.exists_programSite (h : record.Valid) (hexpressions : record.expressions = [])
    {r : Reference} (hread : .read r m running ∈ record.log) :
    ∃ site ∈ record.programSites, site.reference = r := by
  obtain ⟨-, owner, scopes, hsite, -⟩ := h.sound.events _ hread
  refine ⟨⟨r, scopes⟩, ?_, rfl⟩
  have hsite : ⟨r, scopes⟩ ∈ record.sites := hsite
  rwa [Record.sites, hexpressions, List.flatMap_nil, List.append_nil] at hsite

/-- `this` is the object of the receiver. -/
theorem lookUp_this {log : List Event} {x : Receiver} (hright : site.Right m.distances)
    (hm : Mirrors ⟨log, m⟩ (some x) m.chain site.scopes) (hsort : site.reference.sort = .this)
    (hclass : site.scopes.classSort ≠ .noClass) :
    Eval.lookUp site.reference.id site.reference.token m = .ok x.object m := by
  have hspelled := hright.spelled
  rw [Reference.Spelled, hsort] at hspelled
  obtain ⟨d, hd⟩ := Option.isSome_iff_exists.1 (hm.distance?_this hclass)
  obtain ⟨x', hx, hthis⟩ := hm.getAt?_this hd
  cases hx
  have hlexeme : site.reference.token.lexeme = "this" := hspelled
  refine lookUp_of_getAt? (d := d) (hright.distance.trans ?_) ?_
  · rw [Site.distance?, hlexeme]
    exact hd
  · rw [hlexeme]
    exact hthis

theorem Record.Valid.accesses (h : record.Valid) {x : Receiver}
    (hm : Mirrors ⟨record.log, m⟩ (some x) m.chain site.scopes) (hright : site.Right m.distances)
    (hsort : site.reference.sort = .super) (hclass : site.scopes.classSort = .derived) :
    ∃ parent, Accesses record.log m site x parent := by
  have hspelled := hright.spelled
  rw [Reference.Spelled, hsort] at hspelled
  have hlexeme : site.reference.token.lexeme = "super" := hspelled
  obtain ⟨d, hd⟩ := Option.isSome_iff_exists.1 (hm.distance?_super hclass)
  have hdistance : m.distances.get? site.reference.id = some d := by
    rw [hright.distance, Site.distance?, hlexeme, hd]
  obtain ⟨x', parent, hx, hparent, hresult⟩ := superMethod_of_mirrors hm hsort hright hdistance
  cases hx
  have hchain : parent.Made record.log := by
    obtain ⟨definitions, hmade⟩ := hparent
    exact (h.sound.events _ hmade).2 parent rfl
  refine ⟨parent, hparent, fun _ hparent' => hparent'.unique h.sound.identities hparent, hchain,
    fun method => ?_⟩
  have hnearest := hchain.nearest h.sound.events method.lexeme
  have hmethod := parent.map_home? method.lexeme
  rw [hresult]
  cases hhome : parent.home? method.lexeme with
  | none =>
    rw [hhome] at hnearest hmethod
    rw [← hmethod]
    exact .inr ⟨hnearest, rfl⟩
  | some p =>
    obtain ⟨home, found⟩ := p
    rw [hhome] at hnearest hmethod
    rw [← hmethod]
    obtain ⟨f, m', hbind, hf⟩ := bindMethod_boundTo found x.object m
    refine .inl ⟨home, found.definition, f, m', hnearest, ?_, hf⟩
    show (Value.function <$> Eval.bindMethod found x.object) m = _
    simp only [Functor.map, EStateM.map, hbind]

end

/-! ## Sessions -/

/-- **`this` and `super` mean what they were bound to.** Wherever a program reads `this`, the running
    function belongs to one receiver, and gets its object. Wherever it accesses a method by `super`,
    it gets the nearest method from the superclass on that was given when the home of the receiver
    was declared, bound to the object of the receiver. -/
theorem receivers_as_bound (output : Output) (reading : Nat → Float) (steps : List Step) :
    (Record.of output reading steps).session = (Session.start output reading).after steps ∧
      BindsReceivers ∧
      ∀ site ∈ (Record.of output reading steps).programSites, ∀ m running,
        .read site.reference m running ∈ (Record.of output reading steps).log →
          (site.reference.sort = .this → ∃ x,
            RunsFor (Record.of output reading steps).log site running x ∧
            Eval.lookUp site.reference.id site.reference.token m = .ok x.object m) ∧
          (site.reference.sort = .super → ∃ x parent,
            RunsFor (Record.of output reading steps).log site running x ∧
            Accesses (Record.of output reading steps).log m site x parent) := by
  have h := Record.valid_of output reading steps
  refine ⟨Record.session_of output reading steps, bindsReceivers, fun site hsite m running hread =>
    ⟨fun hsort => ?_, fun hsort => ?_⟩⟩
  · have hclass := (h.placed site hsite).this hsort
    obtain ⟨x, hruns, hm, hright⟩ := h.runsFor hsite hread hclass
    exact ⟨x, hruns, lookUp_this hright hm hsort hclass⟩
  · have hclass := (h.placed site hsite).super hsort
    have hinside : site.scopes.classSort ≠ .noClass := by
      rw [hclass]
      exact ClassSort.noConfusion
    obtain ⟨x, hruns, hm, hright⟩ := h.runsFor hsite hread hinside
    obtain ⟨parent, haccess⟩ := h.accesses hm hright hsort hclass
    exact ⟨x, parent, hruns, haccess⟩

/-- A method that calls the one it overrides, stored in a variable and called from there, after the
    name of the superclass has been given to something else. -/
def storedOverride : List Step :=
  [.run 30 (bytesOf "class A\x7bm()\x7breturn this;\x7d\x7d"),
    .run 30 (bytesOf "class B<A\x7bm()\x7breturn super.m();\x7d\x7dvar f=B().m;A=nil;f();")]

/-- Both methods run, and `super` finds the class that `A` was. -/
theorem receivers_as_bound_storedOverride :
    ∃ site ∈ (Record.of (.start none false) (fun _ => 0) storedOverride).programSites,
      ∃ m running x parent,
        .read site.reference m running ∈ (Record.of (.start none false) (fun _ => 0) storedOverride).log ∧
        RunsFor (Record.of (.start none false) (fun _ => 0) storedOverride).log site running x ∧
        Accesses (Record.of (.start none false) (fun _ => 0) storedOverride).log m site x parent := by
  have hread : ((Record.of (.start none false) (fun _ => 0) storedOverride).log.any fun e =>
      match e with
      | .read r _ _ => r.sort == .super
      | _ => false) = true := by decide +kernel
  have hexpressions : (Record.of (.start none false) (fun _ => 0) storedOverride).expressions.isEmpty =
      true := by decide +kernel
  obtain ⟨e, he, hread⟩ := List.any_eq_true.1 hread
  cases e with
  | read r m running =>
    have hsort : r.sort = .super := by simpa using hread
    obtain ⟨site, hsite, rfl⟩ :=
      (Record.valid_of _ _ _).exists_programSite (List.isEmpty_iff.1 hexpressions) he
    obtain ⟨x, parent, hruns, haccess⟩ :=
      ((receivers_as_bound _ _ _).2.2 site hsite m running he).2 hsort
    exact ⟨site, hsite, m, running, x, parent, he, hruns, haccess⟩
  | _ => cases hread

end Lox
