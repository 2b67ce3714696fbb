import Lox.Evaluate
import Lox.Parse.Program
import Lox.Resolve
import Lox.Token.Lexer

set_option autoImplicit false

/-! # Sessions

A session is one machine on which sources are run one after the other. A source with a lexical,
syntax or static error is not run at all; all its errors are reported. A source that runs is
reported with the one error that stopped it, if there was one.

A session can also evaluate a single expression. The names of such an expression are not resolved:
all of them are global. -/

namespace Lox

/-- A machine, and the identity of the next reference in a source. -/
structure Session where
  machine : Machine
  nextId : RefId

/-- How far a source got. -/
inductive Status where
  | completed
  /-- Not run, because of errors in the source. -/
  | staticError
  | runtimeError
  /-- Stopped where no source gets. -/
  | impossible
  /-- Not finished within the bound on its steps. -/
  | outOfFuel
  deriving DecidableEq

/-- The report on a source. -/
structure Report where
  status : Status
  errors : List Error

/-- The report on an expression: the tree if there is one, the errors in the source, and the value
    or what stopped the machine if it was evaluated. -/
structure Evaluation where
  tree : Option Expr
  errors : List Error
  result : Option (Except Stop Value)

/-- The status and the errors with which a program stops. -/
def Stop.report : Stop → Report
  | error e => ⟨.runtimeError, [e]⟩
  | impossible => ⟨.impossible, []⟩
  | outOfFuel => ⟨.outOfFuel, []⟩

namespace Session

/-- A session before its first source. -/
def start (output : Output) (reading : Nat → Float) : Session := ⟨.start output reading, 0⟩

/-- Run a source. What is resolved is kept even if the source is not run. -/
def run (fuel : Nat) (source : List UInt8) (session : Session) : Report × Session :=
  let parsed := Parse.program (Lexer.tokens source) session.nextId
  let resolved := resolveProgram parsed.tree session.machine.distances
  let machine := { session.machine with distances := resolved.distances }
  let errors := Lexer.errors source ++ parsed.errors
  if parsed.ranOut then (⟨.impossible, []⟩, ⟨session.machine, parsed.nextId⟩)
  else if errors.isEmpty && resolved.accepted then
    match runProgram fuel parsed.tree machine with
    | .ok () machine => (⟨.completed, []⟩, ⟨machine, parsed.nextId⟩)
    | .error stop machine => (stop.report, ⟨machine, parsed.nextId⟩)
  else (⟨.staticError, errors ++ resolved.errors⟩, ⟨machine, parsed.nextId⟩)

/-- Evaluate an expression, unless there is an error in its source. -/
def evaluate (fuel : Nat) (source : List UInt8) (session : Session) : Evaluation × Session :=
  let parsed := Parse.singleExpression (Lexer.tokens source) session.nextId
  let errors := Lexer.errors source ++ parsed.errors
  if parsed.ranOut then
    (⟨none, [], some (.error .impossible)⟩, ⟨session.machine, parsed.nextId⟩)
  else match parsed.tree, errors with
  | some e, [] =>
    match Lox.evaluate fuel e session.machine with
    | .ok value machine => (⟨some e, [], some (.ok value)⟩, ⟨machine, parsed.nextId⟩)
    | .error stop machine => (⟨some e, [], some (.error stop)⟩, ⟨machine, parsed.nextId⟩)
  | tree, errors => (⟨tree, errors, none⟩, ⟨session.machine, parsed.nextId⟩)

/-- Take out what has been written since this was last done. -/
def takeText (session : Session) : String × Session :=
  let (text, output) := session.machine.output.takeText
  (text, { session with machine := { session.machine with output } })

end Session

end Lox
