import Lox.CommandLine
import Std.Time.DateTime.Timestamp

set_option autoImplicit false

/-! # The program

Reads the arguments, the file, the clock and the input, and writes the reply. The prompt takes its
turn at each line before it reads the next (`Prompt.turn`); the lines read one by one are those of
the whole input (`Prompt.lines_append`). -/

namespace Lox

/-- More steps than any run takes. -/
def unbounded : Nat := Nat.pow 2 60

/-- The cause of a failure as the system words it. -/
def causeOf : IO.Error → String
  | .noFileOrDirectory _ code details | .permissionDenied _ code details
  | .inappropriateType _ code details | .invalidArgument _ code details
  | .resourceExhausted _ code details | .noSuchThing _ code details
  | .resourceBusy code details | .otherError code details =>
    details ++ " (os error " ++ toString code ++ ")"
  | e => toString e

/-- Read a file. -/
def readContents (name : String) : IO Contents := do
  match ← (IO.FS.Handle.mk name .read).toBaseIO with
  | .error e => return .notOpened (causeOf e)
  | .ok handle =>
    match ← handle.readBinToEnd.toBaseIO with
    | .error e => return .notRead (causeOf e)
    | .ok bytes => return .bytes bytes.toList

/-- A session whose clock starts at the present, in seconds since 1970. A run is a function of its
    session and cannot look at the clock of the system; its clock moves on by a microsecond with each
    reading instead. A present before 1970 is taken for 1970. -/
def startSession : IO Session := do
  let now := (← Std.Time.Timestamp.now).toNanosecondsSinceUnixEpoch.toInt.toNat.toFloat / 1e9
  return .start (.start none false) fun n => now + n.toFloat / 1e6

/-- Write a reply. -/
def present (reply : Reply) : IO UInt32 := do
  let out ← IO.getStdout
  let err ← IO.getStderr
  out.putStr reply.out
  out.flush
  err.putStr reply.err
  err.flush
  return reply.code

/-- Read one line with its end; no bytes at the end of the input. -/
partial def readLine (input : IO.FS.Stream) (read : List UInt8) : IO (List UInt8) := do
  match (← input.read 1).toList with
  | [b] => if b = Lexer.newline then return (b :: read).reverse else readLine input (b :: read)
  | _ => return read.reverse

/-- Take the turns of a conversation, each as soon as its line is read. -/
partial def talk (input : IO.FS.Stream) (session : Session) : IO UInt32 := do
  let _ ← present (.success Prompt.sign)
  let line := (Prompt.lines (← readLine input [])).head?
  let (reply, next) := Prompt.turn unbounded session line
  let code ← present reply
  match next with
  | some session => talk input session
  | none => return code

/-- Carry out a command. -/
def carryOut (command : Command) : IO UInt32 := do
  let session ← startSession
  match command with
  | .prompt => talk (← IO.getStdin) session
  | command =>
    let contents ← match command.file? with
      | some name => readContents name
      | none => pure (.bytes [])
    present (command.reply unbounded session (fun _ => contents) [])

end Lox

def main (arguments : List String) : IO UInt32 := do
  match Lox.Invocation.ofArguments? arguments with
  | none => Lox.present Lox.usage
  | some invocation =>
    if invocation.log then IO.FS.writeFile "app.log" (" ".intercalate arguments ++ "\n")
    Lox.carryOut invocation.command
