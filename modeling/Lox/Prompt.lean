import Lox.Session

set_option autoImplicit false

/-! # The prompt

At the prompt sources are entered line by line and run in one session. Errors are shown and do not
end the session; only a line that is no text does. A conversation is a `turn` for each line and one
for the end of the input, whether the lines are all known at its beginning (`converse`) or each is
read after the reply to the one before. -/

namespace Lox

/-! ## Replies -/

/-- What a command shows on its two streams, and its exit status. -/
structure Reply where
  code : UInt32
  out : String
  err : String

/-- A reply without errors. -/
def Reply.success (out : String) : Reply := ⟨0, out, ""⟩

/-- A command that could not do its work, and why. -/
def Reply.failure (what cause : String) : Reply :=
  ⟨1, "", "Error: " ++ what ++ "\n\nCaused by:\n    " ++ cause ++ "\n"⟩

/-- A reply with more text before its output. -/
def Reply.after (reply : Reply) (text : String) : Reply := { reply with out := text ++ reply.out }

/-- Errors as they are shown, one after the other. -/
def Error.listing (errors : List Error) : String := String.join (errors.map (·.text ++ "\n"))

namespace Prompt

/-! ## Lines -/

def carriageReturn : UInt8 := Lexer.byte '\r'

/-- A line without the carriage return that may stand before its end. -/
def withoutReturn (line : List UInt8) : List UInt8 :=
  if line.getLast? = some carriageReturn then line.dropLast else line

/-- The lines of an input of which a beginning of the first line was already read. -/
def linesAfter (read : List UInt8) : List UInt8 → List (List UInt8)
  | [] => if read.isEmpty then [] else [read.reverse]
  | b :: bs =>
    if b = Lexer.newline then withoutReturn read.reverse :: linesAfter [] bs
    else linesAfter (b :: read) bs

/-- The lines of an input. A newline, with a carriage return before it or without, ends a line;
    what follows the last newline is a line unless it is empty. -/
def lines (input : List UInt8) : List (List UInt8) := linesAfter [] input

/-! ## The conversation -/

/-- What stands before each line. -/
def sign : String := "> "

/-- The end of a conversation at the end of its input. -/
def farewell : Reply := .success "\n"

/-- The end of a conversation at a line that is no text. -/
def unreadable : Reply :=
  .failure "Failed to read from stdin" "stream did not contain valid UTF-8"

/-- The reply to one line and the session after it; no reply to a line that is no text. -/
def answer? (fuel : Nat) (line : List UInt8) (session : Session) : Option (Reply × Session) :=
  match Utf8.decode? line with
  | none => none
  | some _ =>
    let (report, session) := session.run fuel line
    let (text, session) := session.takeText
    some (⟨0, text, Error.listing report.errors⟩, session)

/-- One turn of a conversation, at a line or at the end of the input: what is shown, and the session
    in which the conversation goes on if it does. -/
def turn (fuel : Nat) (session : Session) : Option (List UInt8) → Reply × Option Session
  | none => (farewell, none)
  | some line =>
    match answer? fuel line session with
    | none => (unreadable, none)
    | some (reply, session) => (reply, some session)

/-- Run lines one after the other in a session. -/
def converse (fuel : Nat) (session : Session) : List (List UInt8) → Reply
  | [] => (turn fuel session none).1.after sign
  | line :: rest =>
    match turn fuel session (some line) with
    | (reply, none) => reply.after sign
    | (reply, some session) =>
      let later := converse fuel session rest
      ⟨later.code, sign ++ reply.out ++ later.out, reply.err ++ later.err⟩

end Prompt

end Lox
