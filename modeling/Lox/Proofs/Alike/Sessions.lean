import Lox.Proofs.Alike.Evaluation
import Lox.Proofs.Alike.Programs
import Lox.Proofs.Lexer.Spans
import Lox.Proofs.Run.Records

set_option autoImplicit false

/-! # Sessions that differ in identities of references only

Two sessions are alike if their machines are and the identities they give out next correspond to
each other. Nobody who uses them can tell such sessions apart: each step tells both users the same
(`Session.Alike.step`), and so does every sequence of steps (`Session.Alike.observations`). -/

namespace Lox

/-! ## What a user is told -/

/-- What a user of a session is told of a step. -/
inductive Observation where
  | report (report : Report)
  | evaluation (evaluation : Evaluation)
  | text (text : String)

namespace Session

def observe (session : Session) : Step → Observation
  | .run fuel source => .report (session.run fuel source).1
  | .evaluate fuel source => .evaluation (session.evaluate fuel source).1
  | .takeText => .text session.takeText.1

/-- What a user is told of some steps. -/
def observations (session : Session) : List Step → List Observation
  | [] => []
  | s :: steps => session.observe s :: (session.step s).observations steps

end Session

section

variable (L : Likeness)

/-- Two evaluations that gave alike values or stopped in the same way. -/
inductive ResultAlike : Except Stop Value → Except Stop Value → Prop
  | value {v v' : Value} : v.Alike L v' → ResultAlike (.ok v) (.ok v')
  | stopped (stop : Stop) : ResultAlike (.error stop) (.error stop)

structure Evaluation.Alike (e e' : Evaluation) : Prop where
  tree : Option.Rel (Expr.Alike 0 (L.moves 0) L.ids) e.tree e'.tree
  errors : e'.errors = e.errors
  result : Option.Rel (ResultAlike L) e.result e'.result

/-- The same is told. Only the identities of references in trees and functions may differ. -/
inductive Observation.Alike : Observation → Observation → Prop
  | report (report : Report) : Observation.Alike (.report report) (.report report)
  | evaluation {e e' : Evaluation} : e.Alike L e' →
      Observation.Alike (.evaluation e) (.evaluation e')
  | text (text : String) : Observation.Alike (.text text) (.text text)

structure Session.Alike (session session' : Session) : Prop where
  machine : ∃ known known', known.Alike L.ids known' ∧
    session.machine.Alike L known known' session'.machine
  fresh : ∀ j, L.ids (session.nextId + j) (session'.nextId + j)

end

/-- Identities correspond one to one, and all tokens lie in the same lines. -/
structure Likeness.Level (L : Likeness) : Prop where
  ids : OneToOne L.ids
  moves : ∀ lines t, L.moves lines t ↔ lines = 0

/-! ## Steps -/

@[simp] theorem Error.down_zero (e : Error) : e.down 0 = e := by
  cases e <;> rfl

@[simp] theorem Error.map_down_zero (es : List Error) : es.map (Error.down 0) = es := by
  rw [show Error.down 0 = id from funext Error.down_zero, List.map_id]

variable {L : Likeness}

theorem Stop.Alike.eq (hmoves : ∀ lines t, L.moves lines t → lines = 0) {stop stop' : Stop}
    (h : stop.Alike L stop') : stop' = stop := by
  cases h with
  | error he =>
    cases he with
    | runtime problem ht =>
      cases hmoves _ _ ht
      rfl
    | output => rfl
  | impossible | outOfFuel => rfl

theorem Lexer.tokens_ne_nil (source : List UInt8) : tokens source ≠ [] := by
  obtain ⟨body, hbody, -⟩ := exists_tokens_eq source
  simp [hbody]

theorem Lexer.terminated_tokens (source : List UInt8) :
    Parse.terminated (tokens source) = tokens source := by
  obtain ⟨body, hbody, -⟩ := exists_tokens_eq source
  have hend : Parse.isEnd ⟨.endOfInput, "", 1 + source.count newline⟩ = true := rfl
  simp [Parse.terminated, hbody, hend]

namespace Session

namespace Alike

variable {session session' : Session}

theorem run (hL : L.Level) (h : session.Alike L session') (fuel : Nat) (source : List UInt8) :
    (session'.run fuel source).1 = (session.run fuel source).1 ∧
      (session.run fuel source).2.Alike L (session'.run fuel source).2 := by
  obtain ⟨known, known', hd, hm⟩ := h.machine
  have hparse : Parse.Outcome.Alike 0 _ L.ids _ _ _ :=
    Parse.program_alike (Lexer.tokens_ne_nil source) (fun t _ => (hL.moves 0 t).2 rfl) h.fresh
  rw [Token.map_down_zero] at hparse
  unfold Session.run
  dsimp only
  generalize Parse.program (Lexer.tokens source) session.nextId = parsed at hparse ⊢
  generalize Parse.program (Lexer.tokens source) session'.nextId = parsed' at hparse ⊢
  have hresolve := resolveProgram_alike hL.ids hparse.tree (hm.distances hd)
  have hrun := runProgram_runs hresolve.distances fuel hparse.tree _ _ (hm.withDistances _ _)
  rw [hparse.ranOut, hparse.errors, hresolve.accepted, hresolve.errors, Error.map_down_zero,
    Error.map_down_zero]
  split
  · exact ⟨rfl, ⟨_, _, hd, hm⟩, hparse.fresh⟩
  · split
    · generalize runProgram fuel parsed.tree _ = r at hrun ⊢
      generalize runProgram fuel parsed'.tree _ = r' at hrun ⊢
      cases hrun with
      | ok _ hm => exact ⟨rfl, ⟨_, _, hresolve.distances, hm⟩, hparse.fresh⟩
      | error hstop hm =>
        rw [hstop.eq fun _ _ => (hL.moves _ _).1]
        exact ⟨rfl, ⟨_, _, hresolve.distances, hm⟩, hparse.fresh⟩
    · exact ⟨rfl, ⟨_, _, hresolve.distances, hm.withDistances _ _⟩, hparse.fresh⟩

theorem evaluate (hL : L.Level) (h : session.Alike L session') (fuel : Nat)
    (source : List UInt8) :
    (session.evaluate fuel source).1.Alike L (session'.evaluate fuel source).1 ∧
      (session.evaluate fuel source).2.Alike L (session'.evaluate fuel source).2 := by
  obtain ⟨known, known', hd, hm⟩ := h.machine
  have hparse : Parse.Outcome.Alike 0 _ L.ids _ _ _ :=
    Parse.singleExpression_alike (Lexer.tokens_ne_nil source) (fun t _ => (hL.moves 0 t).2 rfl)
      h.fresh
  rw [Token.map_down_zero] at hparse
  unfold Session.evaluate
  dsimp only
  generalize Parse.singleExpression (Lexer.tokens source) session.nextId = parsed at hparse ⊢
  generalize Parse.singleExpression (Lexer.tokens source) session'.nextId = parsed' at hparse ⊢
  obtain ⟨htree, herrors, -, hfresh, hran⟩ := hparse
  rw [hran, herrors, Error.map_down_zero]
  split
  · exact ⟨⟨.none, rfl, .some (.stopped _)⟩, h.machine, hfresh⟩
  · generalize Lexer.errors source ++ parsed.errors = errors
    generalize parsed.tree = tree at htree ⊢
    generalize parsed'.tree = tree' at htree ⊢
    cases htree with
    | none => exact ⟨⟨.none, rfl, .none⟩, h.machine, hfresh⟩
    | @some e e' he =>
      cases errors with
      | cons _ _ => exact ⟨⟨.some he, rfl, .none⟩, h.machine, hfresh⟩
      | nil =>
        have hrun := evaluate_runs hd fuel he _ _ hm
        dsimp only
        generalize Lox.evaluate fuel e session.machine = r at hrun ⊢
        generalize Lox.evaluate fuel e' session'.machine = r' at hrun ⊢
        cases hrun with
        | ok hv hm => exact ⟨⟨.some he, rfl, .some (.value hv)⟩, ⟨_, _, hd, hm⟩, hfresh⟩
        | error hstop hm =>
          cases hstop.eq fun _ _ => (hL.moves _ _).1
          exact ⟨⟨.some he, rfl, .some (.stopped _)⟩, ⟨_, _, hd, hm⟩, hfresh⟩

theorem takeText (h : session.Alike L session') :
    session'.takeText.1 = session.takeText.1 ∧
      session.takeText.2.Alike L session'.takeText.2 := by
  obtain ⟨known, known', hd, hm⟩ := h.machine
  unfold Session.takeText
  exact ⟨congrArg Output.text hm.output, ⟨known, known', hd, { hm with
    output := congrArg (fun output => output.takeText.2) hm.output }⟩, h.fresh⟩

/-- A step tells both users the same and leaves the sessions alike. -/
theorem step (hL : L.Level) (h : session.Alike L session') (s : Step) :
    (session.observe s).Alike L (session'.observe s) ∧
      (session.step s).Alike L (session'.step s) := by
  cases s with
  | run fuel source =>
    obtain ⟨hreport, hsession⟩ := h.run hL fuel source
    refine ⟨?_, hsession⟩
    rw [Session.observe, Session.observe, hreport]
    exact .report _
  | evaluate fuel source =>
    obtain ⟨hevaluation, hsession⟩ := h.evaluate hL fuel source
    exact ⟨.evaluation hevaluation, hsession⟩
  | takeText =>
    obtain ⟨htext, hsession⟩ := h.takeText
    refine ⟨?_, hsession⟩
    rw [Session.observe, Session.observe, htext]
    exact .text _

theorem after (hL : L.Level) (h : session.Alike L session') (steps : List Step) :
    (session.after steps).Alike L (session'.after steps) := by
  induction steps generalizing session session' with
  | nil => exact h
  | cons s steps ih => exact ih (h.step hL s).2

theorem observations (hL : L.Level) (h : session.Alike L session') (steps : List Step) :
    List.Forall₂ (Observation.Alike L) (session.observations steps)
      (session'.observations steps) := by
  induction steps generalizing session session' with
  | nil => exact .nil
  | cons s steps ih => exact .cons (h.step hL s).1 (ih (h.step hL s).2)

end Alike

end Session

end Lox
