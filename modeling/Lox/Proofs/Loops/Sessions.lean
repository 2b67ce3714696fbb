import Lox.Proofs.Loops.Parts
import Lox.Proofs.Run.Split
import Lox.Proofs.Run.Starts

set_option autoImplicit false

/-! # Sessions that run `for` statements as they are meant

A session that runs its sources directly has the same machine as one that does not, but for the idle
frames (`Session.Thins`). Every step keeps the two so, and tells their users the same
(`forLoops_run_as_meant`). -/

namespace Lox

/-! ## Running sources directly -/

/-- What a user is shown of an evaluation: the tree, the errors, and the text of the value or what
    stopped the machine. -/
def Evaluation.shown (e : Evaluation) : Option Expr × List Error × Option (Except Stop String) :=
  (e.tree, e.errors, e.result.map (Except.map Value.text))

namespace Session

/-- The machine that knows the direct distances in a source besides those it knew. -/
def preparedDirectly (session : Session) (source : List UInt8) : Machine :=
  { session.machine with
    distances := directDistances (session.parsed source).tree session.machine.distances }

/-- Run a source directly, unless there is an error in it. -/
def runDirectly (fuel : Nat) (source : List UInt8) (session : Session) : Report × Session :=
  let parsed := session.parsed source
  if (session.staticErrors source).isEmpty then
    match Direct.runProgram fuel parsed.tree (session.preparedDirectly source) with
    | .ok () machine => (⟨.completed, []⟩, ⟨machine, parsed.nextId⟩)
    | .error stop machine => (stop.report, ⟨machine, parsed.nextId⟩)
  else (⟨.staticError, session.staticErrors source⟩, ⟨session.machine, parsed.nextId⟩)

/-- Evaluate an expression directly, unless there is an error in its source. -/
def evaluateDirectly (fuel : Nat) (source : List UInt8) (session : Session) :
    Evaluation × Session :=
  let parsed := Parse.singleExpression (Lexer.tokens source) session.nextId
  match parsed.tree, Lexer.errors source ++ parsed.errors with
  | some e, [] =>
    match Direct.evaluate fuel e session.machine with
    | .ok value machine => (⟨some e, [], some (.ok value)⟩, ⟨machine, parsed.nextId⟩)
    | .error stop machine => (⟨some e, [], some (.error stop)⟩, ⟨machine, parsed.nextId⟩)
  | tree, errors => (⟨tree, errors, none⟩, ⟨session.machine, parsed.nextId⟩)

def stepDirectly (session : Session) : Step → Session
  | .run fuel source => (session.runDirectly fuel source).2
  | .evaluate fuel source => (session.evaluateDirectly fuel source).2
  | .takeText => session.takeText.2

def afterDirectly (session : Session) (steps : List Step) : Session :=
  steps.foldl stepDirectly session

end Session

/-! ## Tables that grow -/

/-- Two machines do not differ more when more references are known. -/
theorem Machine.Thins.grow {T T' : Tables} {opened : List Bool} {chain chain' : Chain}
    {m m' : Machine} (h : m.Thins T opened chain chain' m') (hgrow : T.Grow T') :
    { m with distances := T'.nested }.Thins T' opened chain chain'
      { m' with distances := T'.direct } := by
  have hle : (T.correspondence opened).Le (T'.correspondence opened) :=
    Tables.le (fun _ => hgrow.knows) (List.prefix_refl opened)
  have hvalue : ∀ v v', Value.Thins T opened v v' → Value.Thins T' opened v v' :=
    fun _ _ hv => hv.mono hle
  have hstore : m.store.Thins T' opened m'.store :=
    ⟨h.store.size, h.store.size', fun frame hframe name =>
      rel_mono hvalue (h.store.lookup frame hframe name)⟩
  exact { h with
    store := hstore
    fields := fun identity name => rel_mono hvalue (h.fields identity name)
    nested := rfl
    direct := rfl }

/-- A session, and the same session if it runs its sources directly. -/
structure Session.Thins (T : Tables) (opened : List Bool) (session session' : Session) : Prop where
  machine : session.machine.Thins T opened globalChain globalChain session'.machine
  bound : session.nextId = T.bound
  bound' : session'.nextId = T.bound
  unknown : ∀ id, T.bound ≤ id → T.nested.get? id = none
  unknown' : ∀ id, T.bound ≤ id → T.direct.get? id = none

namespace Session.Thins

/-- At the start the one frame is the global one. -/
theorem start (output : Output) (reading : Nat → Float) :
    (Session.start output reading).Thins ⟨.empty, .empty, 0⟩ [false]
      (Session.start output reading) := by
  have hempty : Store.Thins ⟨.empty, .empty, 0⟩ [] .empty .empty := ⟨rfl, rfl, nofun⟩
  have hchain : Chain.Thins [false] globalChain globalChain [false] := .kept rfl .nil
  have hmachine : (Machine.start output reading).Thins ⟨.empty, .empty, 0⟩ [false] globalChain
      globalChain (.start output reading) := {
    store := (hempty.openIn [] []).define hchain Native.clock.name (.native .clock)
    global := rfl
    objects := rfl
    fields := fun _ _ => .none
    nextIdentity := rfl
    chain := rfl
    chain' := rfl
    nested := rfl
    direct := rfl
    output := rfl
    clock := rfl }
  exact ⟨hmachine, rfl, rfl, fun _ _ => rfl, fun _ _ => rfl⟩

variable {T : Tables} {opened : List Bool} {session session' : Session}

/-! ## Steps -/

section

variable (h : session.Thins T opened session')

include h

theorem parsed (source : List UInt8) : session'.parsed source = session.parsed source := by
  rw [Session.parsed, h.bound', ← h.bound]
  rfl

theorem staticErrors (source : List UInt8) :
    session'.staticErrors source = session.staticErrors source := by
  have hunknown : ∀ id, session.nextId ≤ id → session.machine.distances.get? id = none := by
    rw [h.bound, h.machine.nested]
    exact h.unknown
  have hunknown' : ∀ id, session'.nextId ≤ id → session'.machine.distances.get? id = none := by
    rw [h.bound', h.machine.direct]
    exact h.unknown'
  exact (Session.staticErrors_eq hunknown' source).trans
    (Session.staticErrors_eq hunknown source).symm

/-- Machines that go on from a session and the same session without idle frames. -/
theorem goOn {opened' : List Bool} {m m' : Machine}
    (hm : m.Thins T opened' globalChain globalChain m') :
    Session.Thins T opened' ⟨m, session.nextId⟩ ⟨m', session'.nextId⟩ :=
  ⟨hm, h.bound, h.bound', h.unknown, h.unknown'⟩

/-- More references are known to a session, all of them with identities given out by then. -/
theorem grow {T' : Tables} (hgrow : T.Grow T')
    (hunknown : ∀ id, T'.bound ≤ id → T'.nested.get? id = none)
    (hunknown' : ∀ id, T'.bound ≤ id → T'.direct.get? id = none) :
    Session.Thins T' opened ⟨{ session.machine with distances := T'.nested }, T'.bound⟩
      ⟨{ session'.machine with distances := T'.direct }, T'.bound⟩ :=
  ⟨h.machine.grow hgrow, rfl, rfl, hunknown, hunknown'⟩

/-- Before an accepted source is run, the tables know all of its references. -/
theorem prepared {source : List UInt8} (hstatic : session.staticErrors source = []) :
    ∃ T' : Tables,
      Session.Thins T' opened ⟨session.prepared source, (session.parsed source).nextId⟩
        ⟨session'.preparedDirectly source, (session.parsed source).nextId⟩ ∧
      CheckedStmts T'.Knows [] false false (session.parsed source).tree := by
  have hparse := session.parsed_follows source
  rw [h.bound] at hparse
  obtain ⟨hclean, hresolved⟩ := List.append_eq_nil_iff.1 hstatic
  have hproper := (hparse.fact (List.append_eq_nil_iff.1 hclean).2).proper
    fun _ ht => Record.spelled_of_mem_start ht
  rw [resolved, h.machine.nested] at hresolved
  obtain ⟨hgrow, hchecked⟩ := Tables.knows_program hparse.drawn hproper h.unknown h.unknown'
    hresolved
  rw [Session.prepared, resolved, preparedDirectly, h.parsed, h.machine.nested, h.machine.direct]
  refine ⟨_, h.grow hgrow (fun id hid => ?_) (fun id hid => ?_), hchecked⟩
  · exact (get?_resolveProgram_of_not_drawn hparse.drawn (.inr hid)).trans
      (h.unknown id (Nat.le_trans hparse.drawn.le hid))
  · exact (get?_directDistances_of_not_drawn hparse.drawn (.inr hid)).trans
      (h.unknown' id (Nat.le_trans hparse.drawn.le hid))

/-- When an expression is read, identities are given out that have no distances. -/
theorem drawn {ids : List RefId} {nextId : RefId} (hdrawn : Grammar.Drawn ids T.bound nextId) :
    Session.Thins ⟨T.nested, T.direct, nextId⟩ opened ⟨session.machine, nextId⟩
      ⟨session'.machine, nextId⟩ := by
  let T' : Tables := ⟨T.nested, T.direct, nextId⟩
  have hgrow : T.Grow T' := ⟨hdrawn.le, fun _ _ => rfl, fun _ _ => rfl⟩
  have hgrown := h.grow hgrow (fun id hid => h.unknown id (Nat.le_trans hdrawn.le hid))
    fun id hid => h.unknown' id (Nat.le_trans hdrawn.le hid)
  rwa [← h.machine.nested, ← h.machine.direct] at hgrown

/-- References that are not resolved have no distance in either table. -/
theorem knows_drawn {e : Expr} {nextId : RefId}
    (hdrawn : Grammar.Drawn (e.references.map Reference.id) T.bound nextId) :
    ∀ r ∈ e.references, Tables.Knows ⟨T.nested, T.direct, nextId⟩ ⟨r, []⟩ := by
  intro r hr
  obtain ⟨hle, hlt⟩ := hdrawn.mem r.id (List.mem_map_of_mem hr)
  refine ⟨hlt, ?_⟩
  dsimp only
  rw [h.unknown r.id hle, h.unknown' r.id hle]
  exact .global

/-- Where a step of a session begins, there is a machine without the idle frames. -/
theorem starts {step : Step} {start : Point} (hstarts : session.Starts step start) :
    ∃ T', start.Thins T' opened globalChain := by
  have hglobal : Chain.Thins opened globalChain globalChain (Scopes.marks []) :=
    .kept h.machine.global .nil
  cases hstarts with
  | @run fuel source hstatic =>
    obtain ⟨T', hprepared, hchecked⟩ := h.prepared hstatic
    have hchain : (session.starting fuel source).2.chain = globalChain := hprepared.machine.chain
    refine ⟨T', ⟨session'.preparedDirectly source, ?_⟩, [], false, false, ?_, hchecked,
      fun _ _ _ => rfl⟩
    · rw [hchain]
      exact hprepared.machine
    · rw [hchain]
      exact hglobal
  | @evaluate fuel source e nextId _ hparsed =>
    obtain ⟨-, hdrawn, -⟩ := Grammar.singleExpression_follows (Lexer.tokens source) session.nextId
    rw [hparsed, h.bound] at hdrawn
    refine ⟨_, ⟨session'.machine, ?_⟩, [], ?_, h.knows_drawn hdrawn⟩
    · rw [h.machine.chain]
      exact (h.drawn hdrawn).machine
    · rw [h.machine.chain]
      exact hglobal

/-- A source that is not run leaves distances behind that are never asked for. -/
theorem rejected (source : List UInt8) :
    ∃ T' : Tables,
      Session.Thins T' opened ⟨session.prepared source, (session.parsed source).nextId⟩
        ⟨session'.machine, (session.parsed source).nextId⟩ := by
  have hdrawn := (session.parsed_follows source).drawn
  rw [h.bound] at hdrawn
  have hmachine : ({ session'.machine with distances := T.direct } : Machine) =
      session'.machine := by rw [← h.machine.direct]
  rw [Session.prepared, resolved, h.machine.nested, ← hmachine]
  refine ⟨⟨_, T.direct, _⟩, h.grow ⟨hdrawn.le, fun id hid => ?_, fun _ _ => rfl⟩
    (fun id hid => ?_) fun id hid => h.unknown' id (Nat.le_trans hdrawn.le hid)⟩
  · exact get?_resolveProgram_of_not_drawn hdrawn (.inl hid)
  · exact (get?_resolveProgram_of_not_drawn hdrawn (.inr hid)).trans
      (h.unknown id (Nat.le_trans hdrawn.le hid))

/-- Running a source reports the same, directly or not. -/
theorem run (fuel : Nat) (source : List UInt8) :
    (session'.runDirectly fuel source).1 = (session.run fuel source).1 ∧
      ∃ T' opened', (session.run fuel source).2.Thins T' opened'
        (session'.runDirectly fuel source).2 := by
  rw [run_eq, runDirectly, h.staticErrors, h.parsed]
  split
  · next hclean =>
    obtain ⟨T', hprepared, hchecked⟩ := h.prepared (List.isEmpty_iff.1 hclean)
    have hrun := Tables.runProgram_follows fuel hchecked h.machine.global _ _ hprepared.machine
    dsimp only at hrun
    generalize runProgram fuel (session.parsed source).tree (session.prepared source) = r
      at hrun ⊢
    generalize Direct.runProgram fuel (session.parsed source).tree
      (session'.preparedDirectly source) = r' at hrun ⊢
    cases hrun with
    | ok _ _ hm => exact ⟨rfl, _, _, hprepared.goOn hm⟩
    | error _ hm => exact ⟨rfl, _, _, hprepared.goOn hm⟩
  · -- with a static error, nothing runs
    obtain ⟨T', hrejected⟩ := h.rejected source
    exact ⟨rfl, T', opened, hrejected⟩

/-- Evaluating an expression shows the same, directly or not. All its names are global. -/
theorem evaluate (fuel : Nat) (source : List UInt8) :
    (session'.evaluateDirectly fuel source).1.shown = (session.evaluate fuel source).1.shown ∧
      ∃ T' opened', (session.evaluate fuel source).2.Thins T' opened'
        (session'.evaluateDirectly fuel source).2 := by
  obtain ⟨hran, hdrawn, -⟩ := Grammar.singleExpression_follows (Lexer.tokens source) T.bound
  unfold evaluateDirectly Session.evaluate
  rw [h.bound, h.bound']
  dsimp only
  generalize Parse.singleExpression (Lexer.tokens source) T.bound = parsed at hran hdrawn ⊢
  have hthins := h.drawn hdrawn
  rw [hran, if_neg Bool.false_ne_true]
  generalize parsed.tree = tree at hdrawn ⊢
  generalize Lexer.errors source ++ parsed.errors = errors
  cases tree with
  | none => exact ⟨rfl, _, _, hthins⟩
  | some e =>
    cases errors with
    | cons _ _ => exact ⟨rfl, _, _, hthins⟩
    | nil =>
      have hknown := h.knows_drawn (e := e) hdrawn
      have hchain : Chain.Thins opened globalChain globalChain (Scopes.marks []) :=
        .kept h.machine.global .nil
      have hrun := (Tables.evaluate_execute_follows fuel).1 hchain hknown _ _ hthins.machine
      dsimp only at hrun ⊢
      generalize Lox.evaluate fuel e session.machine = r at hrun ⊢
      generalize Direct.evaluate fuel e session'.machine = r' at hrun ⊢
      cases hrun with
      | ok _ hv hm =>
        refine ⟨?_, _, _, hthins.goOn hm⟩
        simp only [Evaluation.shown, Option.map_some, Except.map, hv.text]
      | error _ hm => exact ⟨rfl, _, _, hthins.goOn hm⟩

theorem takeText : session.takeText.2.Thins T opened session'.takeText.2 :=
  ⟨{ h.machine with output := congrArg (·.takeText.2) h.machine.output }, h.bound, h.bound',
    h.unknown, h.unknown'⟩

omit h in
/-- Every step leaves sessions behind that are the same but for idle frames, and so does every
    sequence of steps. -/
theorem after (h : session.Thins T opened session') (steps : List Step) :
    ∃ T' opened', (session.after steps).Thins T' opened' (session'.afterDirectly steps) := by
  induction steps generalizing T opened session session' with
  | nil => exact ⟨T, opened, h⟩
  | cons s steps ih =>
    obtain ⟨T', opened', hstep⟩ : ∃ T' opened',
        (session.step s).Thins T' opened' (session'.stepDirectly s) := by
      cases s with
      | run fuel source => exact (h.run fuel source).2
      | evaluate fuel source => exact (h.evaluate fuel source).2
      | takeText => exact ⟨_, _, h.takeText⟩
    exact ih hstep

end

end Session.Thins

/-! ## Loops as they are meant -/

/-- Two sessions that tell a user the same, the second of them directly. -/
structure Session.TellAlike (session direct : Session) : Prop where
  output : direct.machine.output = session.machine.output
  report : ∀ fuel source, (direct.runDirectly fuel source).1 = (session.run fuel source).1
  evaluation : ∀ fuel source,
    (direct.evaluateDirectly fuel source).1.shown = (session.evaluate fuel source).1.shown

/-- Wherever a run comes to the tree of a `for` statement, on a machine without the idle frames the
    rule of the statement does what the tree does. -/
def Point.FollowsRule (p : Point) : Prop :=
  ∀ fuel start condition increment body m, body.declares = false →
    p.Contains (.execute fuel (.forLoop start condition increment body), m) →
      ∃ T opened chain' m', m.Thins T opened m.chain chain' m' ∧
        T.Ends opened m.chain chain' (Flow.Thins T)
          (execute fuel (.forLoop start condition increment body) m)
          (Direct.forStatement start condition increment body fuel m')

theorem Point.Thins.followsRule {T : Tables} {opened : List Bool} {chain' : Chain} {p : Point}
    (h : p.Thins T opened chain') : p.FollowsRule := by
  intro fuel start condition increment body m hbody hcontains
  obtain ⟨opened', chain', ⟨m', hm⟩, scopes, _, _, hchain, hchecked, hdeclares⟩ :=
    hcontains.thins h
  have hends := (Tables.evaluate_execute_follows fuel).2 hchain hchecked hdeclares m m' hm
  rw [Direct.execute_forLoop condition increment hbody] at hends
  exact ⟨T, opened', chain', m', hm, hends⟩

/-- **A `for` statement means a loop.** What is read of one is its tree, with a body that declares
    nothing. Where programs run directly, such a tree does what the rule of the statement says. All
    turns of a loop begin in the scopes in which the loop began, and a function that is declared in a
    loop, outside of calls, is made in these scopes or inside of them. A session that runs its sources
    directly tells its user the same as one that does not, and wherever a step of a session comes to
    the tree of a `for` statement, in the run of an accepted source or in the evaluation of an
    expression, this does what the rule of the statement says. -/
theorem forLoops_run_as_meant :
    (∀ (nearest takesElse : Bool) (n n' : RefId) (f : Token) (ts ts' : List Token) (s : Stmt),
      f.kind = .forKw → Grammar.Reads nearest (.statement takesElse) n (f :: ts) s n' ts' →
        ∃ start condition increment body,
          s = .forLoop start condition increment body ∧ body.declares = false) ∧
    (∀ start condition increment body fuel, body.declares = false →
      Direct.execute fuel (.forLoop start condition increment body) =
        Direct.forStatement start condition increment body fuel) ∧
    (∀ condition increment body fuel m m',
      Direct.BeginsTurn condition increment body fuel m m' → m'.chain = m.chain) ∧
    (∀ p q : Point, p.ContainsHere q → p.2.chain <:+ q.2.chain) ∧
    ∀ (output : Output) (reading : Nat → Float) (steps : List Step),
      let session := (Session.start output reading).after steps
      let direct := (Session.start output reading).afterDirectly steps
      session.TellAlike direct ∧
      ∀ step start, session.Starts step start → start.FollowsRule := by
  refine ⟨fun _ _ _ _ _ _ _ _ hf h => h.eq_forLoop hf,
    fun start condition increment body fuel hbody =>
      Direct.execute_forLoop condition increment hbody start fuel,
    fun _ _ _ _ _ _ h => h.chain_eq, fun _ _ h => h.suffix, fun output reading steps => ?_⟩
  intro session direct
  obtain ⟨T, opened, h⟩ := (Session.Thins.start output reading).after steps
  refine ⟨⟨h.machine.output, fun fuel source => (h.run fuel source).1,
    fun fuel source => (h.evaluate fuel source).1⟩, fun step start hstarts => ?_⟩
  obtain ⟨T', hthins⟩ := h.starts hstarts
  exact hthins.followsRule

/-- A function that is made in the second turn of a loop, and called after the last one. -/
def oneBinding : List UInt8 :=
  bytesOf ("var f;for(var i=0;i<3;i=i+1)\x7bif(i==1)" ++
    "\x7bfun show()\x7bprint i;\x7df=show;\x7d\x7df();")

/-- Whether the second statement of a program is a `for` statement with all its clauses, and its run
    comes there. -/
def comesToLoop (tree : List Stmt) (m : Machine) : Bool :=
  match tree with
  | [first, .block [_, .loop _ (.block [body, .expression _])], _] =>
    !body.declares &&
      match execute 12 first m with
      | .ok .normal _ => true
      | _ => false
  | _ => false

/-- Where a run has come to such a statement, this is a part of it outside of calls. -/
theorem containsHere_of_comesToLoop {tree : List Stmt} {m : Machine}
    (h : comesToLoop tree m = true) :
    ∃ start condition increment body m', body.declares = false ∧
      Point.ContainsHere (.runAll 12 tree, m)
        (.execute 12 (.forLoop start condition increment body), m') := by
  unfold comesToLoop at h
  split at h
  · next first start condition body increment last =>
    obtain ⟨hbody, hfirst⟩ := Bool.and_eq_true_iff.1 h
    split at hfirst
    · next m' hm' =>
      refine ⟨some start, some condition, some increment, body, m', by simpa using hbody, ?_⟩
      exact .head ⟨.otherStatements hm', by simp⟩ (.single ⟨.statement, by simp⟩)
    · cases hfirst
  · cases h

/-- The function finds the variable as the last turn left it, and the loop follows its rule. The tree
    of `for (;;) break;` is read as one of a `for` statement, and a loop without clauses comes to its
    second turn. -/
theorem forLoops_run_as_meant_oneBinding :
    (∃ start condition increment body,
      Stmt.loop (.literal (.bool true)) (.brk ⟨.breakKw, "break", 1⟩) =
        .forLoop start condition increment body ∧ body.declares = false) ∧
    (∃ m, Direct.BeginsTurn none none (.expression (.literal .nil)) 3
      (Machine.start (.start none false) fun _ => 0) m ∧ m.chain = globalChain) ∧
    ((Session.start (.start none false) fun _ => 0).afterDirectly
      [.run 12 oneBinding]).machine.output.text = "3\n" ∧
    (Session.start (.start none false) fun _ => 0).staticErrors oneBinding = [] ∧
    ∃ start condition increment body m,
      ((Session.start (.start none false) fun _ => 0).starting 12 oneBinding).ContainsHere
        (.execute 12 (.forLoop start condition increment body), m) ∧
      globalChain <:+ m.chain ∧
      Direct.execute 12 (.forLoop start condition increment body) =
        Direct.forStatement start condition increment body 12 ∧
      ∃ T opened chain' m', m.Thins T opened m.chain chain' m' ∧
        T.Ends opened m.chain chain' (Flow.Thins T)
          (execute 12 (.forLoop start condition increment body) m)
          (Direct.forStatement start condition increment body 12 m') := by
  obtain ⟨hread, hrule, hturns, hmade, hsessions⟩ := forLoops_run_as_meant
  have hendless : Grammar.Reads true (.statement false) 0
      [⟨.forKw, "for", 1⟩, ⟨.leftParen, "(", 1⟩, ⟨.semicolon, ";", 1⟩, ⟨.semicolon, ";", 1⟩,
        ⟨.rightParen, ")", 1⟩, ⟨.breakKw, "break", 1⟩, ⟨.semicolon, ";", 1⟩]
      (.loop (.literal (.bool true)) (.brk ⟨.breakKw, "break", 1⟩)) 0 [] :=
    .forLoop rfl rfl (.noInitializer rfl) .absent rfl .absent rfl (.brk rfl rfl)
  have hsecond : Direct.BeginsTurn none none (.expression (.literal .nil)) 3
      (Machine.start (.start none false) fun _ => 0)
      (Machine.start (.start none false) fun _ => 0) := .next rfl rfl (.first rfl)
  have hprints : ((Session.start (.start none false) fun _ => 0).after
      [.run 12 oneBinding]).machine.output.text = "3\n" := by decide +kernel
  have hstatic : (Session.start (.start none false) fun _ => 0).staticErrors oneBinding = [] :=
    List.isEmpty_iff.1 (by decide +kernel)
  have hcomes : comesToLoop ((Session.start (.start none false) fun _ => 0).parsed oneBinding).tree
      ((Session.start (.start none false) fun _ => 0).prepared oneBinding) = true := by
    decide +kernel
  have hrun := (hsessions (.start none false) (fun _ => 0) [.run 12 oneBinding]).1
  have hfollows := (hsessions (.start none false) (fun _ => 0) []).2 (.run 12 oneBinding) _
    (.run hstatic)
  obtain ⟨start, condition, increment, body, m, hbody, hhere⟩ := containsHere_of_comesToLoop hcomes
  refine ⟨hread _ _ _ _ _ _ _ _ rfl hendless, ⟨_, hsecond, hturns _ _ _ _ _ _ hsecond⟩, ?_, hstatic,
    start, condition, increment, body, m, hhere, hmade _ _ hhere, hrule _ _ _ _ _ hbody,
    hfollows _ _ _ _ _ _ hbody hhere.contains⟩
  rw [hrun.output, hprints]

end Lox
