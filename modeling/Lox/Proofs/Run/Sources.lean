import Lox.Proofs.Grammar.Soundness.Whole
import Lox.Proofs.Lexer.Spans
import Lox.Proofs.Scoping.Violations
import Lox.Session

set_option autoImplicit false

/-! # What running a source comes to

A source with a static error is not run (`Session.run_eq`): its errors are reported, and all that
changes in the session is what is known of distances. A source without one is run to the end of its
program, or to the one error that stops it. -/

namespace Lox

/-- A lexical error, a syntax error, or one found in resolving names. -/
def Error.isStatic : Error → Bool
  | lexical .. | parse .. | resolve .. => true
  | runtime .. | output .. => false

/-- The errors of a parse are mistakes in the syntax. -/
theorem Parse.program_errors (tokens : List Token) (firstId : RefId) :
    ∃ mistakes : List Mistake, (program tokens firstId).errors = mistakes.map Mistake.error := by
  unfold program
  cases declarations (.start tokens firstId) with
  | ok _ s => exact ⟨s.reported.toList, rfl⟩
  | error f s =>
    cases f with
    | mistake m => exact ⟨s.reported.toList ++ [m], by rw [List.map_append]; rfl⟩
    | outOfTokens => exact ⟨s.reported.toList, rfl⟩

/-- A lexical error lies in the line in which its span ends. -/
theorem Lexer.of_mem_errors {source : List UInt8} {e : Error} (h : e ∈ errors source) :
    ∃ place problem, e = .lexical (lineAt source place) problem := by
  obtain ⟨-, hfaithful, hitems⟩ := spans_spec source
  obtain ⟨item, hitem, he⟩ := List.mem_filterMap.1 h
  cases item with
  | ok t => cases he
  | error e' =>
    cases he
    rw [hitems] at hitem
    rcases List.mem_append.1 hitem with hitem | hitem
    · obtain ⟨s, hs, hitem⟩ := List.mem_filterMap.1 hitem
      have hfaithful := hfaithful s hs
      rw [Span.Faithful, hitem] at hfaithful
      exact ⟨s.last, hfaithful⟩
    · cases List.mem_singleton.1 hitem

namespace Session

variable (session : Session) (source : List UInt8)

/-- The parse of a source that is given to a session. -/
def parsed : Parse.Outcome (List Stmt) := Parse.program (Lexer.tokens source) session.nextId

def resolved : Resolution :=
  resolveProgram (session.parsed source).tree session.machine.distances

/-- All that is wrong with a source before it runs. -/
def staticErrors : List Error :=
  Lexer.errors source ++ (session.parsed source).errors ++ (session.resolved source).errors

/-- The machine that knows the distances in a source besides those it knew. -/
def prepared : Machine :=
  { session.machine with distances := (session.resolved source).distances }

theorem parsed_follows : Grammar.Outcome.Follows (session.parsed source) session.nextId
    ((stmtReferences (session.parsed source).tree).map Reference.id)
    (Grammar.Reads true .declarations session.nextId
      (Parse.State.start (Lexer.tokens source) session.nextId).rest (session.parsed source).tree
      (session.parsed source).nextId []) :=
  Grammar.program_follows _ _

/-- A source is run if nothing is wrong with it. -/
theorem run_eq (fuel : Nat) :
    session.run fuel source =
      if (session.staticErrors source).isEmpty then
        match runProgram fuel (session.parsed source).tree (session.prepared source) with
        | .ok () machine => (⟨.completed, []⟩, ⟨machine, (session.parsed source).nextId⟩)
        | .error stop machine => (stop.report, ⟨machine, (session.parsed source).nextId⟩)
      else
        (⟨.staticError, session.staticErrors source⟩,
          ⟨session.prepared source, (session.parsed source).nextId⟩) := by
  have hran := (session.parsed_follows source).ranOut
  have hclean : ((Lexer.errors source ++ (session.parsed source).errors).isEmpty &&
      (session.resolved source).accepted) = (session.staticErrors source).isEmpty := by
    rw [Bool.eq_iff_iff, Bool.and_eq_true, List.isEmpty_iff, List.isEmpty_iff]
    exact (and_congr_right' resolveProgram_accepted_iff).trans List.append_eq_nil_iff.symm
  unfold run
  rw [show Parse.program (Lexer.tokens source) session.nextId = session.parsed source from rfl]
  dsimp only
  rw [hran, show resolveProgram (session.parsed source).tree session.machine.distances =
    session.resolved source from rfl, hclean]
  rfl

variable {session source} in
/-- What is read as an expression, without errors, is evaluated. -/
theorem evaluate_of_parsed {e : Expr} {n : RefId} (hlexical : Lexer.errors source = [])
    (hparsed : Parse.singleExpression (Lexer.tokens source) session.nextId = ⟨some e, [], n, false⟩)
    (fuel : Nat) :
    session.evaluate fuel source =
      match Lox.evaluate fuel e session.machine with
      | .ok value m => (⟨some e, [], some (.ok value)⟩, ⟨m, n⟩)
      | .error stop m => (⟨some e, [], some (.error stop)⟩, ⟨m, n⟩) := by
  unfold evaluate
  rw [hparsed, hlexical]
  rfl

/-- Every error found before a source runs is a static one. -/
theorem isStatic_of_mem_staticErrors {e : Error} (h : e ∈ session.staticErrors source) :
    e.isStatic = true := by
  simp only [staticErrors, List.mem_append] at h
  rcases h with (h | h) | h
  · obtain ⟨place, problem, rfl⟩ := Lexer.of_mem_errors h
    rfl
  · obtain ⟨mistakes, herrors⟩ := Parse.program_errors (Lexer.tokens source) session.nextId
    rw [parsed, herrors] at h
    obtain ⟨m, -, rfl⟩ := List.mem_map.1 h
    rfl
  · obtain ⟨found, -, rfl⟩ := List.mem_map.1 h
    rfl

end Session

end Lox
