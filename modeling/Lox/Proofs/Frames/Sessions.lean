import Lox.Proofs.Frames.Moments
import Lox.Proofs.Run.Starts

set_option autoImplicit false

/-! # Scopes in a session

At every moment of a session the machine follows a ledger (`Machine.Reachable.exists_follows`). What
an expression or a block does from there changes no set of names, no frame around a frame, and no
class of an object (`KeepsScopes`). Nothing is lost from any moment of a step to a later one
(`Point.Before.losesNone`), to the end of the step (`Session.Starts.losesNone`), and in the steps
behind it (`Session.losesNone_after`). -/

namespace Lox

open Eval

/-! ## Moments of sessions -/

/-- The machines of a session: between its steps, and in the runs of programs and expressions. -/
inductive Machine.Reachable (output : Output) (reading : Nat → Float) : Machine → Prop
  | between (steps : List Step) :
      Reachable output reading ((Session.start output reading).after steps).machine
  | running (steps : List Step) (fuel : Nat) (source : List UInt8) (p : Point) :
      ((Session.start output reading).after steps).staticErrors source = [] →
      (((Session.start output reading).after steps).starting fuel source).Contains p →
      Reachable output reading p.2
  | evaluating (steps : List Step) (fuel : Nat) (e : Expr) (p : Point) :
      Point.Contains (.evaluate fuel e, ((Session.start output reading).after steps).machine) p →
      Reachable output reading p.2

namespace Session

variable {session : Session} {L : Ledger}

/-- The machine after a source that has no static error was run. -/
theorem machine_run (session : Session) (fuel : Nat) {source : List UInt8}
    (hstatic : session.staticErrors source = []) :
    (session.run fuel source).2.machine =
      endOf (runProgram fuel (session.parsed source).tree (session.prepared source)) := by
  rw [run_eq, if_pos (List.isEmpty_iff.2 hstatic)]
  cases runProgram fuel (session.parsed source).tree (session.prepared source) <;> rfl

/-- What a step of a session does to the machine: it runs a program, for which the machine knows
    some more distances, evaluates an expression, or changes neither frames nor objects. -/
theorem step_cases (session : Session) (s : Step) :
    (∃ fuel program distances, (session.step s).machine =
      endOf (runProgram fuel program { session.machine with distances })) ∨
    (∃ fuel e, (session.step s).machine = endOf (Lox.evaluate fuel e session.machine)) ∨
    ∃ distances output, (session.step s).machine = { session.machine with distances, output } := by
  cases s with
  | run fuel source =>
    by_cases hstatic : session.staticErrors source = []
    · exact .inl ⟨fuel, _, _, session.machine_run fuel hstatic⟩
    -- the machine knows the distances although the program is not run
    · refine .inr (.inr ⟨(session.resolved source).distances, session.machine.output, ?_⟩)
      show (session.run fuel source).2.machine = session.prepared source
      rw [run_eq, if_neg (by simpa using hstatic)]
  | evaluate fuel source =>
    show (∃ fuel program distances, (session.evaluate _ source).2.machine = _) ∨
      (∃ fuel e, (session.evaluate _ source).2.machine = _) ∨
      ∃ distances output, (session.evaluate _ source).2.machine = _
    unfold evaluate
    dsimp only
    split
    · exact .inr (.inr ⟨_, _, rfl⟩)
    · split
      · next e _ _ =>
        refine .inr (.inl ⟨fuel, e, ?_⟩)
        cases Lox.evaluate fuel e session.machine <;> rfl
      · exact .inr (.inr ⟨_, _, rfl⟩)
  | takeText => exact .inr (.inr ⟨_, _, rfl⟩)

/-- After a step more is settled. -/
theorem follows_step (h : session.machine.Follows L) (s : Step) :
    ∃ L', L.Le L' ∧ (session.step s).machine.Follows L' := by
  rcases session.step_cases s with ⟨fuel, program, distances, heq⟩ | ⟨fuel, e, heq⟩ |
    ⟨distances, output, heq⟩
  · obtain ⟨L', hle, hm, -⟩ := runProgram_retains fuel L program
      { session.machine with distances } (h.of_eq rfl rfl h.chain)
    exact ⟨L', hle, heq ▸ hm⟩
  · obtain ⟨L', hle, hm, -⟩ := evaluate_retains fuel L e session.machine h
    exact ⟨L', hle, heq ▸ hm⟩
  · exact ⟨L, .refl L, heq ▸ h.of_eq rfl rfl h.chain⟩

theorem follows_after (h : session.machine.Follows L) (steps : List Step) :
    ∃ L', L.Le L' ∧ (session.after steps).machine.Follows L' := by
  induction steps generalizing session L with
  | nil => exact ⟨L, .refl L, h⟩
  | cons s steps ih =>
    obtain ⟨L₁, hle₁, hm₁⟩ := follows_step h s
    obtain ⟨L₂, hle₂, hm₂⟩ := ih hm₁
    exact ⟨L₂, hle₁.trans hle₂, hm₂⟩

/-- Between the steps of a session, chains and objects are as is settled. -/
theorem exists_follows (output : Output) (reading : Nat → Float) (steps : List Step) :
    ∃ L, ((Session.start output reading).after steps).machine.Follows L := by
  have hstart : (Session.start output reading).machine.Follows .start :=
    Machine.follows_start output reading
  obtain ⟨L, -, hm⟩ := follows_after hstart steps
  exact ⟨L, hm⟩

/-! ## Nothing is lost in a session -/

theorem losesNone_step (session : Session) (s : Step) :
    session.machine.LosesNone (session.step s).machine := by
  rcases session.step_cases s with ⟨fuel, program, distances, heq⟩ | ⟨fuel, e, heq⟩ |
    ⟨distances, output, heq⟩
  · have hrun := (runProgram_moves fuel program).losesNone { session.machine with distances }
    rw [heq]
    exact ⟨hrun.names, hrun.fields⟩
  · rw [heq]
    exact (evaluate_moves fuel e).losesNone session.machine
  · rw [heq]
    exact .of_eq rfl rfl

theorem losesNone_after (session : Session) (steps : List Step) :
    session.machine.LosesNone (session.after steps).machine := by
  induction steps generalizing session with
  | nil => exact .refl _
  | cons s steps ih => exact (session.losesNone_step s).trans (ih (session.step s))

/-- What is there at a moment of a step is there when the step has ended. -/
theorem Starts.losesNone {s : Step} {start p : Point} (hstarts : session.Starts s start)
    (h : start.Contains p) : p.2.LosesNone (session.step s).machine := by
  have hended : p.2.LosesNone start.last := p.losesNone_last.trans h.last
  cases hstarts with
  | @run fuel source hstatic =>
    -- the statements of a program are followed by a flush of the output
    have hflush : (session.starting fuel source).last.LosesNone
        (endOf (runProgram fuel (session.parsed source).tree (session.prepared source))) :=
      losesNone_bind (fun flow => by
        cases flow with
        | normal => exact flush_moves
        | _ => exact .throw nofun) _
    show p.2.LosesNone (session.run fuel source).2.machine
    rw [session.machine_run fuel hstatic]
    exact hended.trans hflush
  | @evaluate fuel source e nextId hlexical hparsed =>
    have hmachine : (session.evaluate fuel source).2.machine =
        endOf (Lox.evaluate fuel e session.machine) := by
      rw [evaluate_of_parsed hlexical hparsed]
      cases Lox.evaluate fuel e session.machine <;> rfl
    show p.2.LosesNone (session.evaluate fuel source).2.machine
    rw [hmachine]
    exact hended

end Session

/-- At every moment of a session, chains and objects are as is settled. -/
theorem Machine.Reachable.exists_follows {output : Output} {reading : Nat → Float} {m : Machine}
    (h : Machine.Reachable output reading m) : ∃ L, m.Follows L := by
  cases h with
  | between steps => exact Session.exists_follows output reading steps
  | running steps fuel source p _ hcontains =>
    obtain ⟨L, hm⟩ := Session.exists_follows output reading steps
    obtain ⟨L', -, hp⟩ := hcontains.follows ⟨hm.of_eq rfl rfl hm.chain, trivial⟩
    exact ⟨L', hp.machine⟩
  | evaluating steps fuel e p hcontains =>
    obtain ⟨L, hm⟩ := Session.exists_follows output reading steps
    obtain ⟨L', -, hp⟩ := hcontains.follows ⟨hm, trivial⟩
    exact ⟨L', hp.machine⟩

/-! ## Expressions and blocks -/

/-- Every frame that was there has the names that it had and lies in the frame in which it lay, and
    every object that was there has the class and the fields that it had. -/
structure KeepsScopes (L : Ledger) (m : Machine) (L' : Ledger) (m' : Machine) : Prop where
  names : ∀ frame < m.store.frames.size, ∀ name,
    (m'.store.lookup? frame name).isSome ↔ (m.store.lookup? frame name).isSome
  enclosing : ∀ frame < m.store.frames.size, L'.enclosing[frame]? = L.enclosing[frame]?
  classes : ∀ identity < m.objects.size, L'.classes[identity]? = L.classes[identity]?
  fields : ∀ identity name, (fieldOf? m.objects identity name).isSome →
    (fieldOf? m'.objects identity name).isSome

/-- A step that retains everything and declares nothing keeps scopes. -/
theorem Eval.Retains.keepsScopes {α : Type} {L : Ledger} {x : Eval α} {P : Ledger → α → Prop}
    (hx : Retains false L x P) {m : Machine} (hm : m.Follows L) :
    ∃ L', (endOf (x m)).Follows L' ∧ KeepsScopes L m L' (endOf (x m)) := by
  obtain ⟨L', hle, hm', hkeep, -⟩ := hx m hm
  refine ⟨L', hm', fun frame hframe name => ⟨hkeep.names frame hframe nofun name,
    hkeep.bound frame name⟩, fun frame hframe => ?_, fun identity hidentity => ?_, hkeep.fields⟩
  · rw [hm.frames] at hframe
    rw [Array.getElem?_eq_getElem hframe]
    exact hle.enclosing frame _ (Array.getElem?_eq_getElem hframe)
  · rw [hm.objects] at hidentity
    rw [Array.getElem?_eq_getElem hidentity]
    exact hle.classes identity _ (Array.getElem?_eq_getElem hidentity)

/-- **Expressions and blocks neither leak nor drop names.** At every moment of a session, all chains
    and objects that are held agree on which frame lies around which and what class an object has.
    However an expression or a block ends that is run from there, every frame has the same names as
    before and lies in the same frame, and every object has the same class and at least the same
    fields. So from each frame one chain leads, by ever earlier frames, to the global one. What is bound
    once is never unbound: of two moments of a step one comes before the other, and nothing is lost
    from the one to the other, nor to the end of any later step. -/
theorem scopes_neither_leak_nor_drop (output : Output) (reading : Nat → Float) :
    (∀ m, Machine.Reachable output reading m → (∃ L, m.Follows L) ∧ ∀ L, m.Follows L →
      (∀ fuel e, ∃ L', (endOf (evaluate fuel e m)).Follows L' ∧
        KeepsScopes L m L' (endOf (evaluate fuel e m))) ∧
      (∀ fuel body, ∃ L', (endOf (execute fuel (.block body) m)).Follows L' ∧
        KeepsScopes L m L' (endOf (execute fuel (.block body) m))) ∧
      (∀ chain, L.Lists chain → chain.getLast? = some 0 ∧
        chain.IsChain fun frame around => around < frame) ∧
      ∀ frame < m.store.frames.size, ∃ outer, L.Lists (frame :: outer) ∧
        ∀ outer', L.Lists (frame :: outer') → outer' = outer) ∧
    ∀ steps : List Step,
      let session := (Session.start output reading).after steps
      (∀ more, session.machine.LosesNone (session.after more).machine) ∧
      ∀ step start, session.Starts step start →
        (∀ p q, start.Contains p → start.Contains q → start.Before p q ∨ start.Before q p) ∧
        (∀ p q, start.Before p q → p.2.LosesNone q.2) ∧
        ∀ p, start.Contains p →
          (∀ q, p.Contains q → p.2.LosesNone q.2) ∧
          ∀ more, p.2.LosesNone (session.after (step :: more)).machine := by
  refine ⟨fun m hm => ⟨hm.exists_follows, fun L hL => ⟨fun fuel e => ?_, fun fuel body => ?_,
    fun chain hchain => ⟨hchain.getLast?, hchain.decreasing hL.proper⟩, fun frame hframe => ?_⟩⟩,
    fun steps => ?_⟩
  · exact (evaluate_retains fuel L e).keepsScopes hL
  · exact (execute_block_retains fuel L body).keepsScopes hL
  · obtain ⟨outer, houter⟩ := hL.proper.exists_lists (hL.frames ▸ hframe)
    exact ⟨outer, houter, fun outer' h => (List.cons.inj (h.unique houter rfl)).2⟩
  · intro session
    refine ⟨session.losesNone_after, fun step start hstarts => ⟨fun p q hp hq => ?_,
      fun p q h => h.losesNone, fun p hp => ⟨fun q hq => hq.losesNone, fun more => ?_⟩⟩⟩
    · exact hp.before_total hq
    · exact (hstarts.losesNone hp).trans ((session.step step).losesNone_after more)

/-- A function whose variable lives on in a function that it returns, and a call of this one. -/
def counter : List UInt8 :=
  bytesOf "fun f()\x7bvar n=0;fun g()\x7bn=n+1;return n;\x7dreturn g;\x7dvar h=f();h();"

/-- A session in which it was run. -/
def counted : Session := (Session.start (.start none false) fun _ => 0).after [.run 30 counter]

theorem scopes_neither_leak_nor_drop_counter :
    (counted.machine.store.lookup? 0 "n").isNone ∧
      (∀ more, ((counted.after more).machine.store.lookup? 1 "n").isSome) ∧
      ∃ L, counted.machine.Follows L ∧ ∀ fuel e,
        ∃ L', (endOf (evaluate fuel e counted.machine)).Follows L' ∧
          KeepsScopes L counted.machine L' (endOf (evaluate fuel e counted.machine)) := by
  have hcounted :
      counted = (Session.start (.start none false) fun _ => 0).after [.run 30 counter] := by
    rw [counted]
  have hglobal : (counted.machine.store.lookup? 0 "n").isNone := by decide +kernel
  have hbound : (counted.machine.store.lookup? 1 "n").isSome := by decide +kernel
  obtain ⟨hmoments, hsteps⟩ := scopes_neither_leak_nor_drop (.start none false) fun _ => 0
  have hmoment := hmoments _ (.between [.run 30 counter])
  have hlater := (hsteps [.run 30 counter]).1
  rw [← hcounted] at hmoment hlater
  obtain ⟨⟨L, hL⟩, hlaws⟩ := hmoment
  exact ⟨hglobal, fun more => (hlater more).names 1 "n" hbound, L, hL, (hlaws L hL).1⟩

end Lox
