import Lox.Proofs.Lexer.Cursor
import Lox.Proofs.Run.Reads

set_option autoImplicit false

/-! # No source gets where none should

There are five places where a run would have to give up: the scanner looks at a byte that is not
there, the parser at a token behind the last one, `super` has no scope just inside its own, a `break`
or a `return` gets out of a program, or a `break` out of a function. `Session.Safe` says of a session
that no source that is given to it next gets to one of the first four; the notes of a session tell
that no function that ever ran was left by a `break`. -/

namespace Lox

namespace Session

/-- No source gets to a place where a run would have to give up. -/
structure Safe (session : Session) : Prop where
  /-- However often the scanner is asked, it finds the bytes it looks for. -/
  scanned : ∀ source n, (Lexer.Scanner.start.outputs? source n).isSome
  /-- The parser does not look behind the last token. -/
  parsed : ∀ source, (Parse.program (Lexer.tokens source) session.nextId).ranOut = false ∧
    (Parse.singleExpression (Lexer.tokens source) session.nextId).ranOut = false
  run : ∀ fuel source, (session.run fuel source).1.status ≠ .impossible
  evaluated : ∀ fuel source, (session.evaluate fuel source).1.result ≠ some (.error .impossible)
  /-- Neither a `break` nor a `return` gets out of a program that is accepted. -/
  consumed : ∀ fuel source flow machine,
    let parsed := Parse.program (Lexer.tokens source) session.nextId
    let resolved := resolveProgram parsed.tree session.machine.distances
    Lexer.errors source = [] → parsed.errors = [] → resolved.errors = [] →
      runAll (execute fuel) parsed.tree { session.machine with distances := resolved.distances } =
        .ok flow machine → flow = .normal

end Session

/-- A program that is run where its flow gets out of it stops at once. -/
theorem runProgram_of_flow {fuel : Nat} {program : List Stmt} {m m' : Machine} {flow : Flow}
    (hrun : runAll (execute fuel) program m = .ok flow m') (hflow : flow ≠ .normal) :
    runProgram fuel program m = .error .impossible m' := by
  unfold runProgram
  simp only [Bind.bind, EStateM.bind, hrun]
  cases flow with
  | normal => exact absurd rfl hflow
  | _ => rfl

theorem Record.Valid.safe {record : Record} (h : record.Valid) : record.session.Safe where
  scanned source n := by rw [Lexer.Scanner.outputs?_eq]; rfl
  parsed source := ⟨(Grammar.program_follows _ _).ranOut, (Grammar.singleExpression_follows _ _).ranOut⟩
  run fuel source := by
    rw [← (record.run_erase fuel source).1]
    exact (h.run fuel source).2
  evaluated fuel source := by
    rw [← (record.evaluate_erase fuel source).1]
    exact (h.evaluate fuel source).2
  consumed fuel source flow machine := by
    intro parsed resolved hlexical hparsed hstatic hrun
    by_contra hflow
    have hclean : (record.session.staticErrors source).isEmpty = true := by
      rw [List.isEmpty_iff, Session.staticErrors, hlexical]
      exact List.append_eq_nil_iff.2 ⟨hparsed, hstatic⟩
    have hstatus := (h.run fuel source).2
    rw [(record.run_erase fuel source).1, Session.run_eq, if_pos hclean,
      show Lox.runProgram fuel (record.session.parsed source).tree
          (record.session.prepared source) = _
        from runProgram_of_flow hrun hflow] at hstatus
    exact hstatus rfl

/-- **No source gets where none should.** Whatever has been done with a session, no source that is
    given to it next makes it give up, and no `break` has got out of a function. -/
theorem never_gives_up (output : Output) (reading : Nat → Float) (steps : List Step) :
    (Record.of output reading steps).session = (Session.start output reading).after steps ∧
      ((Session.start output reading).after steps).Safe ∧
      ∀ f flow, .ended f flow ∈ (Record.of output reading steps).log → flow ≠ .broken := by
  have hvalid := Record.valid_of output reading steps
  have hsession := Record.session_of output reading steps
  exact ⟨hsession, hsession ▸ hvalid.safe, fun f flow hended => hvalid.sound.events _ hended⟩

/-- A function whose loop is left by a `break`. -/
def breakingFunction : List Step := [.run 20 (bytesOf "fun f()\x7bwhile(true)break;\x7df();")]

/-- The body of the function ends normally. -/
theorem never_gives_up_breakingFunction : ∃ f flow,
    .ended f flow ∈ (Record.of (.start none false) (fun _ => 0) breakingFunction).log ∧
      flow ≠ .broken := by
  have hended : ((Record.of (.start none false) (fun _ => 0) breakingFunction).log.any fun e =>
      match e with
      | .ended _ _ => true
      | _ => false) = true := by decide +kernel
  obtain ⟨e, he, hended⟩ := List.any_eq_true.1 hended
  cases e with
  | ended f flow => exact ⟨f, flow, he, (never_gives_up _ _ _).2.2 f flow he⟩
  | _ => exact nomatch hended

end Lox
