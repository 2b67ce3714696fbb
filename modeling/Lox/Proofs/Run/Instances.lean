import Lox.Proofs.Run.Starts

set_option autoImplicit false

/-! # Constructing yields the new instance

Calling a class makes an object that is there nowhere yet and gives it back, unless the body of its
initializer fails (`Constructs`). Calling an initializer by itself, however it was come by, gives the
object that it is bound to (`Initializes`), for that is what `this` stays in the frame around it,
whatever the program does. -/

namespace Lox

open Eval

/-! ## Bodies -/

/-- Run the body of a function in a new scope with its parameters. -/
def runBody (run : Stmt → Eval Flow) (f : Closure) (arguments : List Value) : Eval Flow := do
  let chain ← openScope f.chain ((f.definition.params.map (·.lexeme)).zip arguments)
  within chain (runAll run f.definition.body)

theorem callFunction_eq (run : Stmt → Eval Flow) (f : Closure) (arguments : List Value) :
    callFunction run f arguments = runBody run f arguments >>= result f := by
  simp only [callFunction, runBody, bind_assoc]

/-- A method is found by its name. -/
theorem Class.Fits.name_of_method? {K : Site → Prop} {μ : Moment} {c : Class} (h : c.Fits K μ)
    (hs : μ.Sound K) {name : String} {method : Method} (hmethod : c.method? name = some method) :
    method.definition.name.lexeme = name := by
  obtain ⟨body, hbody, hfind⟩ := List.exists_of_findSome?_eq_some hmethod
  obtain ⟨definitions, parent, hmade⟩ := h.made.exists_made body hbody
  obtain ⟨⟨chain, hmethods⟩, -⟩ := hs.events _ hmade
  rw [hmethods, find?_methodsOf] at hfind
  obtain ⟨definition, hlast, rfl⟩ := Option.map_eq_some_iff.1 hfind
  simpa using List.find?_some hlast

/-! ## What is said of calls -/

/-- In no frame is `this` another one than before. -/
def Machine.KeepsThis (m m' : Machine) : Prop :=
  ∀ frame v, m.store.lookup? frame "this" = some v → m'.store.lookup? frame "this" = some v

/-- A value that a variable or a field holds. -/
def Machine.Holds (m : Machine) (v : Value) : Prop :=
  (∃ frame name, m.store.lookup? frame name = some v) ∨
    ∃ identity name, fieldOf? m.objects identity name = some v

/-- A value that was the result of an expression in a run, at a time when there were at most so many
    objects. -/
def Point.Yielded (start : Point) (objects : Nat) (v : Value) : Prop :=
  ∃ fuel e m m', start.Contains (.evaluate fuel e, m) ∧ evaluate fuel e m = .ok v m' ∧
    m'.objects.size ≤ objects

/-- The call of an initializer does what its body does, and gives the object that is `this`. -/
def Initializes (fuel : Nat) (f : Closure) (vs : List Value) (m : Machine) : Prop :=
  ∃ identity c, m.store.getAt? f.chain 0 "this" = some (.object identity c) ∧
    callFunction (execute fuel) f vs m =
      (do let _ ← runBody (execute fuel) f vs; return Value.object identity c) m

/-- The call of a class makes an object of this class, does what the body of its initializer does if
    it has one, and gives the object. -/
structure Constructs (start : Point) (fuel : Nat) (c : Class) (vs : List Value) (m : Machine) :
    Prop where
  /-- The object is no value that was there before. -/
  fresh : ∀ v, m.Holds v ∨ v ∈ vs ∨ start.Yielded m.objects.size v →
    v.equals (.object m.objects.size c) = false
  plain : c.method? initializerName = none → ∀ paren,
    applyCall (execute fuel) paren (.class c) vs m =
      .ok (.object m.objects.size c) { m with objects := m.objects.push [] }
  initialized : ∀ method, c.method? initializerName = some method → ∃ f m',
    f.BoundTo method.definition (.object m.objects.size c) m' ∧ f.isInitializer = true ∧
      Point.Part (.construct fuel c vs, m) (.call fuel f vs, m') ∧ ∀ paren,
      applyCall (execute fuel) paren (.class c) vs m =
        (do let _ ← runBody (execute fuel) f vs; return Value.object m.objects.size c) m'

/-! ## Calls in a sound run -/

section

variable {K : Site → Prop} {log : List Event} {fuel : Nat} {vs : List Value} {m : Machine}

theorem initializes_of_placed {f : Closure} (hp : Point.Placed K log (.call fuel f vs, m))
    (hinit : f.isInitializer = true) : Initializes fuel f vs m := by
  obtain ⟨hs, hf, hvs, hsize⟩ := hp
  obtain ⟨frame, outer, r, hchain, -, hthis⟩ := hf.initializes hinit
  have hobject : ∀ m' : Machine, m'.store.lookup? frame "this" = some r.object →
      m'.store.getAt? f.chain 0 "this" = some r.object := fun m' h => by
    rw [hchain]
    exact h
  refine ⟨r.identity, r.origin, hobject m hthis, ?_⟩
  rw [callFunction_eq]
  simp only [Bind.bind, EStateM.bind]
  cases hbody : runBody (execute fuel) f vs m with
  | error stop m' => rfl
  | ok flow m' =>
    have herases := (Noted.erases_openScope (.call f.definition) f.chain
      ((f.definition.params.map (·.lexeme)).zip vs)).bind fun chain =>
        Noted.Erases.within chain (Noted.erases_runAll (Noted.erases_execute (some f) fuel)
          f.definition.body)
    obtain ⟨_, hl, -, -⟩ :=
      (keeps_body (keeps_execute fuel) hf hvs hsize).of_erased herases hs hbody
    -- no step of the body binds `this` anew in the frame around it
    have hthis' : m'.store.getAt? f.chain 0 "this" = some r.object :=
      hobject m' (hl.reserved _ _ not_chosen_this _ hthis)
    have hlookup : m'.store.getAt? f.chain 0
        (Token.ofName "this" f.definition.name.line).lexeme = some r.object := hthis'
    dsimp only
    unfold result
    rw [if_pos hinit, get_bind, hlookup]
    rfl

theorem constructs_of_placed {start : Point} {c : Class} (hstart : start.Counted)
    (hcontains : start.Contains (.construct fuel c vs, m))
    (hp : Point.Placed K log (.construct fuel c vs, m)) : Constructs start fuel c vs m := by
  have hcounted := hcontains.counted hstart
  have hsize : vs.length = c.arity := hp.task.2.2
  have hcall : ∀ paren, applyCall (execute fuel) paren (.class c) vs m =
      construct (execute fuel) c vs m := by
    intro paren
    simp only [applyCall, Value.arity?, hsize, ne_eq, not_true_eq_false, if_false]
  constructor
  · -- whatever is held has the identity of an earlier object, and they are counted from 0 on
    rintro v (hv | hv | hv)
    · rcases hv with ⟨frame, name, hv⟩ | ⟨identity, name, hv⟩
      · exact (hcounted.machine.values frame name v hv).equals (Nat.le_refl _) c
      · exact (hcounted.machine.fields identity name v hv).equals (Nat.le_refl _) c
    · exact (hcounted.arguments v hv).equals (Nat.le_refl _) c
    · obtain ⟨fuel', e, m₁, m₂, hearlier, hvalue, hle⟩ := hv
      obtain ⟨hm₁, -⟩ := hearlier.counted hstart
      obtain ⟨-, -, hbelow⟩ := (evaluate_counts fuel' e 0).of_ok hvalue hm₁ (Nat.zero_le _)
      exact hbelow.equals hle c
  · intro hnone paren
    rw [hcall, construct, hnone]
    rfl
  · intro method hmethod
    obtain ⟨f, m', hbind, hbound⟩ := bindMethod_boundTo method (.object m.objects.size c)
      { m with objects := m.objects.push [] }
    have hpart : Point.Part (.construct fuel c vs, m) (.call fuel f vs, m') :=
      .initializer rfl hmethod hbind
    have hinit : f.isInitializer = true := by
      rw [hbound.initializes, FunctionDef.isInitializer,
        hp.task.1.name_of_method? hp.sound hmethod, beq_self_eq_true]
    obtain ⟨_, -, hplaced⟩ := hpart.placed hp
    obtain ⟨identity, c', hthis, hresult⟩ := initializes_of_placed hplaced hinit
    refine ⟨f, m', hbound, hinit, hpart, fun paren => ?_⟩
    have hobject : newObject c m =
        .ok (.object m.objects.size c) { m with objects := m.objects.push [] } := rfl
    rw [hcall, construct]
    simp only [hmethod, Bind.bind, EStateM.bind, hobject, hbind, hresult]
    cases runBody (execute fuel) f vs m' <;> rfl

end

/-! ## Sessions -/

/-- **Constructing yields the new instance.** Take any moment in the run of an accepted program, or in
    the evaluation of an expression, at which a class is called with as many arguments as it takes.
    The call fails only if the body of the initializer does, and else gives an object of this very
    class, which is no value that a variable, a field or an argument holds then, or that any
    expression had before. A call of an initializer there fails only if its body does, and else gives
    the object that is `this` in the frame around it. That is the object to which the method was
    bound, and in no frame is `this` ever changed. -/
theorem constructing_yields_instance (output : Output) (reading : Nat → Float) (steps : List Step)
    (step : Step) (start : Point) :
    let session := (Session.start output reading).after steps
    session.Starts step start →
      (∀ fuel c vs m, start.Contains (.construct fuel c vs, m) → Constructs start fuel c vs m) ∧
      (∀ fuel f vs m, start.Contains (.call fuel f vs, m) → f.isInitializer = true →
        Initializes fuel f vs m) ∧
      (∀ method object m, ∃ f m', bindMethod method object m = .ok f m' ∧
        f.BoundTo method.definition object m') ∧
      (∀ p q : Point, start.Contains p → p.Contains q → p.2.KeepsThis q.2) ∧
      ∀ fuel e m v m', start.Contains (.evaluate fuel e, m) → evaluate fuel e m = .ok v m' →
        m.KeepsThis m' := by
  intro session hstarts
  have hcounted : start.Counted :=
    hstarts.counted (Session.counted_after (Machine.counted_start output reading) steps)
  have hnoted : (Record.of output reading steps).session.Starts step start := by
    rwa [Record.session_of]
  obtain ⟨K, hplaced⟩ := (Record.valid_of output reading steps).placed_starts hnoted
  refine ⟨fun fuel c vs m h => ?_, fun fuel f vs m h hinit => ?_, bindMethod_boundTo,
    fun p q h h' => ?_, fun fuel e m v m' h hv => ?_⟩
  · obtain ⟨_, -, hp⟩ := h.placed hplaced
    exact constructs_of_placed hcounted h hp
  · obtain ⟨_, -, hp⟩ := h.placed hplaced
    exact initializes_of_placed hp hinit
  · obtain ⟨_, -, hp⟩ := h.placed hplaced
    obtain ⟨_, hgrows, -⟩ := h'.placed hp
    exact fun frame w hw => hgrows.reserved frame "this" not_chosen_this w hw
  · obtain ⟨_, -, hs, running, scopes, hstands, hk⟩ := h.placed hplaced
    obtain ⟨_, hleads, -⟩ := evaluated_placed hstands hk hs hv
    exact fun frame w hw => hleads.reserved frame "this" not_chosen_this w hw

/-- A class that inherits an initializer, which returns from within a loop, and a call of it. -/
def earlyReturn : List UInt8 :=
  bytesOf "class A\x7binit(n)\x7bwhile(true)\x7breturn;\x7d\x7d\x7dclass B<A\x7b\x7dB(1);"

/-- Whether a program of two statements and a call constructs, with an initializer, at the call. -/
def constructsAtEnd (tree : List Stmt) (m : Machine) : Bool :=
  match tree with
  | [s₁, s₂, .expression (.call callee _ arguments)] =>
    match execute 20 s₁ m with
    | .ok .normal m₁ =>
      match execute 20 s₂ m₁ with
      | .ok .normal m₂ =>
        match evaluate 18 callee m₂ with
        | .ok (.class c) m₃ =>
          match arguments.mapM (evaluate 18) m₃ with
          | .ok vs _ => vs.length == c.arity && (c.method? initializerName).isSome
          | _ => false
        | _ => false
      | _ => false
    | _ => false
  | _ => false

theorem constructing_yields_instance_earlyReturn :
    let session := Session.start (.start none false) fun _ => 0
    let start := session.starting 20 earlyReturn
    session.staticErrors earlyReturn = [] ∧ ∃ c vs m,
      start.Contains (.construct 18 c vs, m) ∧ (c.method? initializerName).isSome = true ∧
        Constructs start 18 c vs m := by
  intro session start
  have hstatic : session.staticErrors earlyReturn = [] :=
    List.isEmpty_iff.1 (by decide +kernel)
  have hruns : constructsAtEnd (session.parsed earlyReturn).tree (session.prepared earlyReturn) =
      true := by decide +kernel
  have hconstructs := (constructing_yields_instance (.start none false) (fun _ => 0) []
    (.run 20 earlyReturn) start (.run hstatic)).1
  refine ⟨hstatic, ?_⟩
  have hstart : start = (.runAll 20 (session.parsed earlyReturn).tree, session.prepared earlyReturn) :=
    rfl
  clear_value session start
  generalize (session.parsed earlyReturn).tree = tree at hruns hstart
  generalize session.prepared earlyReturn = m at hruns hstart
  unfold constructsAtEnd at hruns
  split at hruns
  · next s₁ s₂ callee paren arguments =>
    split at hruns
    · next m₁ h₁ =>
      split at hruns
      · next m₂ h₂ =>
        split at hruns
        · next c m₃ hcallee =>
          split at hruns
          · next vs m₄ harguments =>
            obtain ⟨hsize, hinit⟩ := Bool.and_eq_true_iff.1 hruns
            have hcontains : start.Contains (.construct 18 c vs, m₄) := by
              rw [hstart]
              refine (Point.Part.otherStatements h₁).contains ?_
              refine (Point.Part.otherStatements h₂).contains ?_
              refine Point.Part.statement.contains (Point.Part.expression.contains ?_)
              exact (Point.Part.construct hcallee harguments (beq_iff_eq.1 hsize)).contains (.refl _)
            exact ⟨c, vs, m₄, hcontains, hinit, hconstructs 18 c vs m₄ hcontains⟩
          · cases hruns
        · cases hruns
      · cases hruns
    · cases hruns
  · cases hruns

end Lox
