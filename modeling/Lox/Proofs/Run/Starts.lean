import Lox.Proofs.Run.Objects
import Lox.Proofs.Run.Placed
import Lox.Proofs.Run.Sources

set_option autoImplicit false

/-! # Where the steps of a session begin

A step of a session runs a program or evaluates an expression, unless there is an error in its source.
What it runs begins at a point (`Session.Starts`), from which all that happens in the step can be
come to. There the moment is sound and the text is checked (`Record.Valid.placed_starts`), and all
objects that are held have been made (`Session.Starts.counted`). -/

namespace Lox

namespace Session

/-! ## Points -/

/-- The point at which the run of a source begins. -/
def starting (session : Session) (fuel : Nat) (source : List UInt8) : Point :=
  (.runAll fuel (session.parsed source).tree, session.prepared source)

/-- The point at which begins what a step runs. -/
inductive Starts (session : Session) : Step → Point → Prop
  /-- A source in which there is no static error. -/
  | run {fuel source} : session.staticErrors source = [] →
      Starts session (.run fuel source) (session.starting fuel source)
  /-- A source that is read as an expression. -/
  | evaluate {fuel source e nextId} : Lexer.errors source = [] →
      Parse.singleExpression (Lexer.tokens source) session.nextId = ⟨some e, [], nextId, false⟩ →
      Starts session (.evaluate fuel source) (.evaluate fuel e, session.machine)

/-! ## Objects -/

/-- In a session, all objects that are held anywhere have been made. -/
theorem counted_step {session : Session} (h : session.machine.Counted) (s : Step) :
    (session.step s).machine.Counted := by
  cases s with
  | run fuel source =>
    have hprepared : (session.prepared source).Counted := h.of_eq rfl rfl
    have hrun := runProgram_counts fuel (session.parsed source).tree _ hprepared (Nat.zero_le _)
    show (session.run fuel source).2.machine.Counted
    rw [run_eq]
    split
    · generalize runProgram fuel (session.parsed source).tree (session.prepared source) = r at hrun ⊢
      cases r with
      | ok _ _ => exact hrun.1
      | error _ _ => exact hrun
    · exact hprepared
  | evaluate fuel source =>
    show (session.evaluate fuel source).2.machine.Counted
    unfold evaluate
    dsimp only
    split
    · exact h
    · split
      · next e _ _ =>
        have hrun := evaluate_counts fuel e 0 session.machine h (Nat.zero_le _)
        generalize Lox.evaluate fuel e session.machine = r at hrun ⊢
        cases r with
        | ok _ _ => exact hrun.1
        | error _ _ => exact hrun
      · exact h
  | takeText => exact h.of_eq rfl rfl

theorem counted_after {session : Session} (h : session.machine.Counted) (steps : List Step) :
    (session.after steps).machine.Counted := by
  induction steps generalizing session with
  | nil => exact h
  | cons s steps ih => exact ih (counted_step h s)

theorem Starts.counted {session : Session} {step : Step} {start : Point}
    (h : session.Starts step start) (hcounted : session.machine.Counted) : start.Counted := by
  cases h with
  | run => exact ⟨hcounted.of_eq rfl rfl, List.forall_mem_nil _⟩
  | evaluate => exact ⟨hcounted, List.forall_mem_nil _⟩

end Session

/-! ## Places -/

/-- What a step runs begins in a sound moment, with a text that is checked. -/
theorem Record.Valid.placed_starts {record : Record} (h : record.Valid) {step : Step} {start : Point}
    (hstarts : record.session.Starts step start) : ∃ K, start.Placed K record.log := by
  cases hstarts with
  | @run fuel source hstatic =>
    obtain ⟨hclean, hresolved⟩ := List.append_eq_nil_iff.1 hstatic
    have hfollows := record.session.parsed_follows source
    have hproper := (hfollows.fact (List.append_eq_nil_iff.1 hclean).2).proper
      fun _ ht => spelled_of_mem_start ht
    have herrors : (record.session.resolved source).errors = [] := hresolved
    obtain ⟨hsound, hchecked, -⟩ := h.starts hproper hfollows.drawn herrors
    refine ⟨_, hsound, none, [], false, false, ⟨none, ?_, nofun⟩, nofun, hchecked⟩
    show Mirrors _ none record.session.machine.chain []
    rw [h.chain]
    exact .global
  | @evaluate fuel source e nextId hlexical hparsed =>
    have hfollows := Grammar.singleExpression_follows (Lexer.tokens source) record.session.nextId
    rw [hparsed] at hfollows
    obtain ⟨e', he, hreads⟩ := hfollows.fact rfl
    cases he
    obtain ⟨hsound, hstands, hknown⟩ :=
      h.evaluates (hreads.proper fun _ ht => spelled_of_mem_start ht) hfollows.drawn
    exact ⟨_, hsound, none, [], hstands, hknown⟩

end Lox
