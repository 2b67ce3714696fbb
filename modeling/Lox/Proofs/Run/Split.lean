import Lox.Proofs.Grammar.Joined
import Lox.Proofs.Lexer.Seam
import Lox.Proofs.Run.Known
import Lox.Proofs.Scoping.Joined

set_option autoImplicit false

/-! # One source or two

A session may be given a program in two sources or in one, the second part behind the first on the
next line. Through all phases, the single run does what the two runs do: no token goes across the
seam (`Lexer.tokens_append`), no statement does (`Grammar.program_append`), resolving the first part
leaves only distances behind (`resolveProgram_append`), and running it leaves a machine that is
alike in both cases, in which the second part then does the same. What differs is where the second
part lies: as many lines further down as the first one takes up. -/

namespace Lox

/-! ## Errors of a source on its own -/

/-- All that is wrong with a source before it runs, whatever session it is given to. -/
def staticErrors (source : List UInt8) : List Error :=
  let parsed := Parse.program (Lexer.tokens source) 0
  Lexer.errors source ++ parsed.errors ++ (resolveProgram parsed.tree .empty).errors

/-- Whatever session a source is given to, the same is wrong with it. -/
theorem Session.staticErrors_eq {session : Session}
    (hunknown : ∀ id, session.nextId ≤ id → session.machine.distances.get? id = none)
    (source : List UInt8) : session.staticErrors source = Lox.staticErrors source := by
  let ids : RefId → RefId → Prop := fun id id' => id' = session.nextId + id
  have hids : OneToOne ids := by
    rintro id _ other _ rfl rfl
    exact Nat.add_left_cancel_iff
  have hparse : Parse.Outcome.Alike 0 _ ids (List.Forall₂ (Stmt.Alike 0 (fun _ => True) ids))
      (Parse.program (Lexer.tokens source) 0)
      (Parse.program ((Lexer.tokens source).map (Token.down 0)) session.nextId) :=
    Parse.program_alike (Lexer.tokens_ne_nil source) (fun _ _ => trivial) fun j => by
      show session.nextId + j = session.nextId + (0 + j)
      rw [Nat.zero_add]
  rw [Token.map_down_zero] at hparse
  have hdistances : Distances.empty.Alike ids session.machine.distances := by
    rintro id _ rfl
    exact hunknown _ (Nat.le_add_right _ _)
  have hresolve := resolveProgram_alike hids hparse.tree hdistances
  have herrors : (session.parsed source).errors = _ := hparse.errors
  have hresolved : (session.resolved source).errors = _ := hresolve.errors
  rw [Session.staticErrors, herrors, hresolved, Error.map_down_zero, Error.map_down_zero]
  rfl

/-! ## The seam in the source -/

/-- Two sources as one, the second on the line after the first. -/
def joined (p q : List UInt8) : List UInt8 := p ++ Lexer.newline :: q

/-- A session behind a source that was parsed and resolved, but not run. -/
def Session.withResolved (session : Session) (source : List UInt8) : Session :=
  ⟨session.prepared source, (session.parsed source).nextId⟩

/-- What comes of a joint source: nothing is wrong with it, its program is that of the first part
    and behind it a tree, and this tree is like the program of the second part, only further down. -/
structure Session.Joins (session : Session) (p q : List UInt8) (tree : List Stmt) : Prop where
  parsed : session.parsed (joined p q) =
    ⟨(session.parsed p).tree ++ tree, [], ((session.withResolved p).parsed q).nextId, false⟩
  alike : List.Forall₂ (Stmt.Alike (p.count Lexer.newline + 1) (Token.Of (Lexer.tokens q)) Eq)
    ((session.withResolved p).parsed q).tree tree
  clean : session.staticErrors (joined p q) = []
  distances : ((session.withResolved p).resolved q).distances.Alike Eq
    (session.resolved (joined p q)).distances
  older : ∀ id < (session.parsed p).nextId,
    (session.resolved (joined p q)).distances.get? id =
      (session.resolved p).distances.get? id

/-- Two sources that are parsed without a mistake are parsed so if they are joined. -/
theorem Session.parsed_joined {session : Session} {p q : List UInt8}
    (hlexical : Lexer.errors p = []) (hp : (session.parsed p).errors = [])
    {rest : Parse.Outcome (List Stmt)}
    (hrest : Parse.program ((Lexer.tokens q).map (Token.down (p.count Lexer.newline + 1)))
      (session.parsed p).nextId = rest)
    (hq : rest.errors = []) :
    session.parsed (joined p q) =
      ⟨(session.parsed p).tree ++ rest.tree, [], rest.nextId, false⟩ := by
  subst hrest
  obtain ⟨ts, hts, hbody⟩ := Lexer.exists_tokens_eq p
  obtain ⟨us, hus, hbody'⟩ := Lexer.exists_tokens_eq q
  unfold parsed at hp hq ⊢
  unfold joined
  rw [Lexer.tokens_append hlexical, hts, List.dropLast_concat]
  rw [hts] at hp hq
  rw [hus, List.map_append, List.map_singleton] at hq ⊢
  rw [← List.append_assoc]
  refine Grammar.program_append hbody ?_ rfl rfl hp hq
  intro t ht
  obtain ⟨u, hu, rfl⟩ := List.mem_map.1 ht
  exact hbody' u hu

/-- Two sources without static errors can be joined. -/
theorem Session.exists_joins {session : Session} {p q : List UInt8}
    (hp : session.staticErrors p = []) (hq : (session.withResolved p).staticErrors q = []) :
    ∃ tree, session.Joins p q tree := by
  simp only [staticErrors, List.append_eq_nil_iff] at hp hq
  obtain ⟨⟨hlexical, hp⟩, hresolved⟩ := hp
  obtain ⟨⟨hlexical', hq⟩, hresolved'⟩ := hq
  have hparse : Parse.Outcome.Alike (p.count Lexer.newline + 1) _ Eq
      (List.Forall₂ (Stmt.Alike (p.count Lexer.newline + 1) (Token.Of (Lexer.tokens q)) Eq))
      ((session.withResolved p).parsed q)
      (Parse.program ((Lexer.tokens q).map (Token.down (p.count Lexer.newline + 1)))
        (session.parsed p).nextId) :=
    Parse.program_alike (Lexer.tokens_ne_nil q)
      (fun t ht => .inl (Lexer.terminated_tokens q ▸ ht)) fun _ => rfl
  have hdrawn := (Grammar.program_follows
    ((Lexer.tokens q).map (Token.down (p.count Lexer.newline + 1))) (session.parsed p).nextId).drawn
  generalize hrest : Parse.program ((Lexer.tokens q).map _) (session.parsed p).nextId = rest
    at hparse hdrawn
  have hparsed := parsed_joined hlexical hp hrest (by rw [hparse.errors, hq, List.map_nil])
  have hseam : session.resolved (joined p q) =
      resolveProgram rest.tree (session.resolved p).distances := by
    rw [resolved, hparsed]
    exact resolveProgram_append hresolved _
  have hresolve := resolveProgram_alike (fun _ _ _ _ h h' => by rw [h, h']) hparse.tree
    (fun _ _ h => congrArg (session.resolved p).distances.get? h.symm)
  refine ⟨rest.tree, ?_, hparse.tree, ?_, hseam ▸ hresolve.distances, fun id hid => ?_⟩
  · rw [hparsed, show ((session.withResolved p).parsed q).nextId = rest.nextId from hparse.fresh 0]
  · have herrors : Lexer.errors (joined p q) = [] := Lexer.errors_append hlexical hlexical'
    rw [staticErrors, herrors, hparsed, hseam, hresolve.errors]
    exact congrArg (List.map _) hresolved'
  · rw [hseam]
    exact get?_resolveProgram _ _ fun hmem => absurd (hdrawn.mem id hmem).1 (Nat.not_le.2 hid)

/-! ## Running statements behind each other -/

/-- Statements are run after others if those come to their end. -/
theorem runAll_append (run : Stmt → Eval Flow) (ss ss' : List Stmt) (m : Machine) :
    runAll run (ss ++ ss') m =
      match runAll run ss m with
      | .ok .normal m' => runAll run ss' m'
      | r => r := by
  induction ss generalizing m with
  | nil => rfl
  | cons s ss ih =>
    simp only [List.cons_append, runAll, bind, EStateM.bind]
    cases run s m with
    | error stop m' => rfl
    | ok flow m' =>
      cases flow with
      | normal => exact ih m'
      | returned _ | broken => rfl

theorem runAll_append_of_stopped {run : Stmt → Eval Flow} {ss : List Stmt} {m : Machine}
    (h : ∀ m', runAll run ss m ≠ .ok .normal m') (ss' : List Stmt) :
    runAll run (ss ++ ss') m = runAll run ss m := by
  rw [runAll_append]
  split
  · next m' heq => exact absurd heq (h m')
  · rfl

/-! ## Ends of runs -/

/-- What is reported when the statements of a program have come to an end. -/
def Flow.report : Flow → Report
  | .normal => ⟨.completed, []⟩
  | .returned _ | .broken => Stop.impossible.report

/-- The report on a source and the session behind it, by how its statements end. -/
def Session.ended (nextId : RefId) : EStateM.Result Stop Machine Flow → Report × Session
  | .ok flow machine => (flow.report, ⟨machine, nextId⟩)
  | .error stop machine => (stop.report, ⟨machine, nextId⟩)

theorem Session.ended_completed_iff {r : EStateM.Result Stop Machine Flow} {nextId : RefId} :
    (ended nextId r).1.status = .completed ↔ ∃ m, r = .ok .normal m := by
  constructor
  · intro h
    cases r with
    | ok flow m =>
      cases flow with
      | normal => exact ⟨m, rfl⟩
      | returned _ | broken => cases h
    | error stop m => cases stop <;> cases h
  · rintro ⟨m, rfl⟩
    rfl

theorem Eval.flush_of_not_fails {m : Machine} (h : m.output.flushFails = false) :
    flush m = .ok () m := by
  unfold flush
  rw [get_bind, h]
  rfl

/-- Where flushing does not fail, a source is over when its statements are. -/
theorem Session.Known.run_ended {session : Session} {written : List Token}
    (h : session.Known written false) {source : List UInt8}
    (hclean : session.staticErrors source = []) (fuel : Nat) :
    session.run fuel source = ended (session.parsed source).nextId
      (runAll (execute fuel) (session.parsed source).tree (session.prepared source)) := by
  have hrun := h.executeAll fuel source fun _ _ => rfl
  rw [run_eq, hclean, List.isEmpty_nil, if_pos rfl]
  simp only [Lox.runProgram, bind, EStateM.bind]
  change EndAlike _ _ _ (runAll _ _ (session.prepared source))
    (runAll _ _ (session.prepared source)) at hrun
  generalize runAll (execute fuel) (session.parsed source).tree (session.prepared source) = r
    at hrun ⊢
  cases hrun with
  | error _ _ => rfl
  | ok hflow hm =>
    cases hflow with
    | returned _ | broken => rfl
    | normal =>
      dsimp only
      rw [Eval.flush_of_not_fails hm.flushFails]
      rfl

section

variable (L : Likeness)

/-- The same status, and alike errors. -/
structure Report.Alike (r r' : Report) : Prop where
  status : r'.status = r.status
  errors : List.Forall₂ (Error.Alike L) r.errors r'.errors

end

section

variable {L : Likeness} {known known' : Distances}

theorem Stop.Alike.report {stop stop' : Stop} (h : stop.Alike L stop') :
    stop.report.Alike L stop'.report := by
  cases h with
  | error he => exact ⟨rfl, .cons he .nil⟩
  | impossible => exact ⟨rfl, .nil⟩
  | outOfFuel => exact ⟨rfl, .nil⟩

theorem Flow.Alike.report {flow flow' : Flow} (h : flow.Alike L flow') :
    flow.report.Alike L flow'.report := by
  cases h <;> exact ⟨rfl, .nil⟩

/-- Alike ends are reported alike, and leave sessions alike. -/
theorem Session.ended_alike {r r' : EStateM.Result Stop Machine Flow}
    (h : EndAlike (Stop.Alike L) (Machine.Alike L known known') (Flow.Alike L) r r')
    (hd : known.Alike L.ids known') {nextId nextId' : RefId}
    (hfresh : ∀ j, L.ids (nextId + j) (nextId' + j)) :
    (ended nextId r).1.Alike L (ended nextId' r').1 ∧
      (ended nextId r).2.Alike L (ended nextId' r').2 := by
  cases h with
  | ok hflow hm => exact ⟨hflow.report, ⟨_, _, hd, hm⟩, hfresh⟩
  | error hstop hm => exact ⟨hstop.report, ⟨_, _, hd, hm⟩, hfresh⟩

/-- Where nothing lies further down, alike ends are the same to a user. -/
theorem Session.ended_eq {r r' : EStateM.Result Stop Machine Flow}
    (h : EndAlike (Stop.Alike L) (Machine.Alike L known known') (Flow.Alike L) r r')
    (hmoves : ∀ lines t, L.moves lines t → lines = 0) (nextId nextId' : RefId) :
    (ended nextId' r').1 = (ended nextId r).1 ∧
      (ended nextId' r').2.machine.output = (ended nextId r).2.machine.output := by
  cases h with
  | ok hflow hm =>
    refine ⟨?_, hm.output⟩
    cases hflow <;> rfl
  | error hstop hm => exact ⟨congrArg Stop.report (hstop.eq hmoves), hm.output⟩

end

/-! ## Two sources and their joint source -/

/-- Machines that differ in the lines of what was written later, by a number of lines. -/
def Likeness.seam (earlier later : List Token) (lines : Nat) : Likeness where
  ids := Eq
  moves n t := n = 0 ∧ t.Of earlier ∨ n = lines ∧ t.Of later
  moves_this _ _ h := h.imp (.imp_right Token.Of.this) (.imp_right Token.Of.this)
  flushFails := false

theorem Likeness.below_le_seam (bound : RefId) (earlier later : List Token) (lines : Nat) :
    (Likeness.below bound earlier false).Le (.seam earlier later lines) :=
  ⟨fun _ _ h => h.1.symm, fun _ _ h => .inl h⟩

namespace Session.Joins

variable {session : Session} {p q : List UInt8} {tree : List Stmt}

/-- Behind the first part, the second part runs like a source of its own. -/
theorem second_runs (h : session.Joins p q tree) {earlier : List Token} {m m' : Machine}
    (hm : m.Alike (.below (session.parsed p).nextId earlier false) (session.resolved p).distances
      (session.resolved (joined p q)).distances m') (fuel : Nat) :
    let behind : Session := ⟨m, (session.parsed p).nextId⟩
    let L := Likeness.seam earlier (Lexer.tokens q) (p.count Lexer.newline + 1)
    (behind.resolved q).distances.Alike L.ids
        (session.resolved (joined p q)).distances ∧
      EndAlike (Stop.Alike L)
        (Machine.Alike L (behind.resolved q).distances
          (session.resolved (joined p q)).distances)
        (Flow.Alike L)
        (runAll (execute fuel) (behind.parsed q).tree (behind.prepared q))
        (runAll (execute fuel) tree m') := by
  intro behind L
  have hresolved : behind.resolved q = (session.withResolved p).resolved q :=
    congrArg (resolveProgram (behind.parsed q).tree) hm.known
  have hd : (behind.resolved q).distances.Alike L.ids
      (session.resolved (joined p q)).distances := hresolved ▸ h.distances
  have hle : (Likeness.below (session.parsed p).nextId earlier false).Le L :=
    Likeness.below_le_seam _ _ _ _
  have hmachine := hm.mono hle rfl (behind.resolved q).distances
    (session.resolved (joined p q)).distances
  have htree : List.Forall₂ (Stmt.Alike (p.count Lexer.newline + 1)
      (L.moves (p.count Lexer.newline + 1)) L.ids) (behind.parsed q).tree tree :=
    stmts_alike_mono (fun _ ht => .inr ⟨rfl, ht⟩) h.alike fun _ _ _ hid => hid
  rw [show { m' with distances := _ } = m' by rw [← hm.known']] at hmachine
  exact ⟨hd, executeAll_runs hd fuel htree _ _ hmachine⟩

section

variable (h : session.Joins p q tree) {written : List Token}
  (hknown : session.Known written false) (hp : session.staticErrors p = []) (fuel : Nat)

include h hknown

/-- In the joint source, the first part runs like the source of its own that it is. -/
theorem first_runs :
    let L := Likeness.below (session.parsed p).nextId (written ++ Lexer.tokens p) false
    EndAlike (Stop.Alike L)
      (Machine.Alike L (session.resolved p).distances (session.resolved (joined p q)).distances)
      (Flow.Alike L) (runAll (execute fuel) (session.parsed p).tree (session.prepared p))
      (runAll (execute fuel) (session.parsed p).tree (session.prepared (joined p q))) :=
  hknown.executeAll fuel p h.older

include hp

/-- If the first source completes, both sources do what their joint source does. -/
theorem run_alike (hq : (session.withResolved p).staticErrors q = [])
    (hstatus : (session.run fuel p).1.status = .completed) :
    let second := (session.run fuel p).2.run fuel q
    let whole := session.run fuel (joined p q)
    let L := Likeness.seam (written ++ Lexer.tokens p) (Lexer.tokens q) (p.count Lexer.newline + 1)
    second.1.Alike L whole.1 ∧ second.2.Alike L whole.2 := by
  have hrun := h.first_runs hknown fuel
  have hbehind := hknown.run fuel p
  rw [hknown.run_ended hp fuel] at hstatus hbehind ⊢
  rw [hknown.run_ended h.clean fuel, h.parsed, runAll_append]
  obtain ⟨m, hm⟩ := ended_completed_iff.1 hstatus
  rw [hm] at hrun hbehind ⊢
  generalize runAll (execute fuel) (session.parsed p).tree (session.prepared _) = r' at hrun ⊢
  cases hrun with
  | ok hflow hm =>
    cases hflow
    obtain ⟨hd, hsecond⟩ := h.second_runs hm fuel
    have hclean : (ended (session.parsed p).nextId (.ok .normal m)).2.staticErrors q = [] := by
      show Lexer.errors q ++ _ ++ (resolveProgram _ m.distances).errors = []
      rw [hm.known]
      exact hq
    rw [hbehind.run_ended hclean fuel]
    exact ended_alike hsecond hd fun _ => rfl

/-- If the first source does not complete, the joint source stops there too. -/
theorem run_eq_of_stopped (hstatus : (session.run fuel p).1.status ≠ .completed) :
    let whole := session.run fuel (joined p q)
    whole.1 = (session.run fuel p).1 ∧
      whole.2.machine.output = (session.run fuel p).2.machine.output := by
  have hrun := h.first_runs hknown fuel
  rw [hknown.run_ended hp fuel, ne_eq, ended_completed_iff] at hstatus
  rw [hknown.run_ended hp fuel, hknown.run_ended h.clean fuel, h.parsed]
  dsimp only
  rw [runAll_append_of_stopped]
  · exact ended_eq hrun (fun _ _ hmoves => hmoves.1) _ _
  · rintro m' hm'
    rw [hm'] at hrun
    generalize runAll (execute fuel) (session.parsed p).tree (session.prepared p) = r at *
    cases hrun with
    | ok hflow _ =>
      cases hflow
      exact hstatus ⟨_, rfl⟩

end

end Session.Joins

/-- **Splitting a program over two sources does not change its meaning.** Whatever has been done with
    a session, let nothing be wrong with two sources, and flushing the output not fail. If the first
    source completes, then the second one after it and the joint source alone have the same status,
    the same error if there is one, and the same output, and all global bindings are alike: what comes
    of the second source lies further down by the lines of the first one, and identities are even the
    same. If the first source stops, the joint one stops with the same report and output. -/
theorem split_run_alike {output : Output} (hflush : output.flushFails = false)
    (reading : Nat → Float) (before : List Step) (fuel : Nat) {p q : List UInt8}
    (hp : staticErrors p = []) (hq : staticErrors q = []) :
    let session := (Session.start output reading).after before
    let first := session.run fuel p
    let second := first.2.run fuel q
    let whole := session.run fuel (joined p q)
    let L := Likeness.seam (before.flatMap Step.tokens ++ Lexer.tokens p) (Lexer.tokens q)
      (p.count Lexer.newline + 1)
    (first.1.status = .completed →
      second.1.Alike L whole.1 ∧
        whole.2.machine.output = second.2.machine.output ∧
        (∀ name, Option.Rel (Value.Alike L) (second.2.machine.store.get? globalChain name)
          (whole.2.machine.store.get? globalChain name)) ∧
        second.2.Alike L whole.2) ∧
      (first.1.status ≠ .completed →
        whole.1 = first.1 ∧ whole.2.machine.output = first.2.machine.output) := by
  have hvalid := Record.valid_of output reading before
  have hknown := Session.known_after output reading before
  rw [← Record.session_of, hflush] at hknown
  rw [← Record.session_of]
  generalize Record.of output reading before = record at hvalid hknown ⊢
  obtain ⟨-, hunknown⟩ := hvalid.resolving (record.session.parsed_follows p).drawn
  have hfirst := (Session.staticErrors_eq hvalid.unknown p).trans hp
  have hsecond : (record.session.withResolved p).staticErrors q = [] :=
    (Session.staticErrors_eq hunknown q).trans hq
  obtain ⟨tree, hjoins⟩ := Session.exists_joins hfirst hsecond
  intro session first second whole L
  refine ⟨fun hstatus => ?_, fun hstatus => ?_⟩
  · obtain ⟨hreport, halike⟩ := hjoins.run_alike hknown hfirst fuel hsecond hstatus
    obtain ⟨_, _, -, hm⟩ := halike.machine
    exact ⟨hreport, hm.output, hm.store.get? globalChain, halike⟩
  · exact hjoins.run_eq_of_stopped hknown hfirst fuel hstatus

/-- Two declarations, -/
def declarations : List UInt8 := bytesOf "var a;\nfun f() \x7bprint a;\x7d"

/-- and what can only be run behind them, up to an undefined variable. -/
def uses : List UInt8 := bytesOf "f();\nb;"

theorem split_run_alike_declarations :
    let session := Session.start (.start none false) fun _ => 0
    let second := (session.run 8 declarations).2.run 8 uses
    let whole := session.run 8 (joined declarations uses)
    second.1.status = .runtimeError ∧ whole.1.status = .runtimeError ∧
      second.2.machine.output.text = "nil\n" ∧ whole.2.machine.output.text = "nil\n" := by
  have hp : staticErrors declarations = [] := by decide +kernel
  have hq : staticErrors uses = [] := by decide +kernel
  have hflush : (Output.start none false).flushFails = false := rfl
  have hsame := split_run_alike hflush (fun _ => 0) [] 8 hp hq
  have hnil : (Session.start (.start none false) fun _ => 0).after [] =
    .start (.start none false) fun _ => 0 := rfl
  rw [hnil] at hsame
  obtain ⟨hreport, houtput, -, -⟩ := hsame.1 (by decide +kernel)
  have hstatus : (((Session.start (.start none false) fun _ => 0).run 8 declarations).2.run 8
      uses).1.status = .runtimeError := by decide +kernel
  have htext : (((Session.start (.start none false) fun _ => 0).run 8 declarations).2.run 8
      uses).2.machine.output.text = "nil\n" := by decide +kernel
  exact ⟨hstatus, hreport.status.trans hstatus, htext, (congrArg Output.text houtput).trans htext⟩

end Lox
