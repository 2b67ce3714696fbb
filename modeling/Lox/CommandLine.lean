import Lox.Prompt
import Lox.Text.Visible
import Lox.Tree.Export
import Lox.Tree.Printer

set_option autoImplicit false

/-! # The command line

A command reads a source from a file and lists its tokens, prints its tree, evaluates it as an
expression or runs it; or it starts the prompt. `Invocation.ofArguments?` reads the arguments,
`Command.reply` is what a command answers. Reading the file is left to the caller, who hands over
its `Contents`. -/

namespace Lox

/-! ## Arguments -/

/-- A command. Where a file is wanted, its name may be left out. -/
inductive Command where
  | tokenize (file : Option String) (json : Bool)
  | parse (file : Option String) (json : Bool)
  | evaluate (file : Option String)
  | run (file : Option String)
  | prompt

/-- A command and whether the program is to keep a log. -/
structure Invocation where
  command : Command
  log : Bool

/-- The arguments after the name of a command. -/
structure Operands where
  file : Option String
  json : Bool
  log : Bool

namespace Operands

/-- No arguments. -/
def empty : Operands := ⟨none, false, false⟩

/-- Take an argument as the name of the file. There is at most one, and it is not empty. -/
def withFile? (o : Operands) (name : String) : Option Operands :=
  if o.file.isSome || name.isEmpty then none else some { o with file := some name }

/-- Whether an argument has the form of an option. A single dash has not. -/
def isOption (argument : String) : Bool := argument.startsWith "-" && argument ≠ "-"

/-- Read further arguments. Each option may be given once; two dashes end the options. -/
def read? (o : Operands) : List String → Option Operands
  | [] => some o
  | "--" :: names => names.foldlM withFile? o
  | "--json" :: rest => if o.json then none else { o with json := true }.read? rest
  | "--log" :: rest => if o.log then none else { o with log := true }.read? rest
  | argument :: rest =>
    if isOption argument then none else (o.withFile? argument).bind (·.read? rest)

end Operands

/-- The command of a name. Only listings can be written as JSON, and the prompt takes no file. -/
def Command.ofName? (name : String) (file : Option String) (json : Bool) : Option Command :=
  match name, file, json with
  | "tokenize", file, json => some (.tokenize file json)
  | "parse", file, json => some (.parse file json)
  | "evaluate", file, false => some (.evaluate file)
  | "run", file, false => some (.run file)
  | "repl", none, false => some .prompt
  | _, _, _ => none

/-- The invocation of a named command. -/
def Invocation.ofOperands? (name : String) (o : Operands) : Option Invocation :=
  (Command.ofName? name o.file o.json).map (⟨·, o.log⟩)

/-- Read the arguments of the program. A log may be asked for before the name of the command or
    after it. -/
def Invocation.ofArguments? : List String → Option Invocation
  | "--log" :: name :: rest => do
    let i ← Invocation.ofOperands? name (← Operands.empty.read? rest)
    return { i with log := true }
  | name :: rest => do Invocation.ofOperands? name (← Operands.empty.read? rest)
  | [] => none

/-- The answer to arguments that cannot be read. -/
def usage : Reply :=
  ⟨2, "", "Usage: lox [--log] tokenize|parse|evaluate|run|repl [FILE] [--json] [--log]\n"⟩

/-! ## Files -/

/-- What became of reading a file. -/
inductive Contents where
  | bytes (bs : List UInt8)
  | notOpened (cause : String)
  | notRead (cause : String)

/-- The file that a command reads. -/
def Command.file? : Command → Option String
  | tokenize file _ => file
  | parse file _ => file
  | evaluate file => file
  | run file => file
  | prompt => none

/-- The form of a character in a quoted file name. One that is not visible is shown by its
    number. -/
def escapeInName (c : Char) : String :=
  if c = '"' then "\\\""
  else if c = '\\' then "\\\\"
  else if c = '\n' then "\\n"
  else if c = '\r' then "\\r"
  else if c = '\t' then "\\t"
  else if c.toNat = 0 then "\\0"
  else if isVisible c then c.toString
  else "\\u\x7b" ++ String.ofList (Nat.toDigits 16 c.toNat) ++ "\x7d"

/-- A file name in quotes. -/
def quotedName (name : String) : String :=
  "\"" ++ String.join (name.toList.map escapeInName) ++ "\""

/-! ## Answers -/

/-- The exit status of a program with errors before it runs. -/
def staticErrorCode : UInt32 := 65

/-- The exit status of a program that is stopped while it runs. -/
def runtimeErrorCode : UInt32 := 70

def Status.code : Status → UInt32
  | completed => 0
  | staticError => staticErrorCode
  | runtimeError | impossible | outOfFuel => runtimeErrorCode

/-- The answer to a source with errors, of which nothing is shown. -/
def rejected (errors : List Error) : Reply := ⟨staticErrorCode, "", Error.listing errors⟩

/-- List the tokens of a source, even if there are errors. -/
def tokensReply (json : Bool) (source : List UInt8) : Reply :=
  let tokens := Lexer.tokens source
  let errors := Lexer.errors source
  let listing :=
    if json then (Document.list (tokens.map Token.document)).render ++ "\n"
    else String.join (tokens.map (·.describe ++ "\n"))
  ⟨if errors.isEmpty then 0 else staticErrorCode, listing, Error.listing errors⟩

/-- Print the tree of a source. -/
def treeReply (json : Bool) (source : List UInt8) : Reply :=
  let parsed := Parse.program (Lexer.tokens source) 0
  let errors := Lexer.errors source ++ parsed.errors
  if !errors.isEmpty then rejected errors
  else if json then .success ((Document.list (stmtDocuments parsed.tree)).render ++ "\n")
  else .success (printedProgram parsed.tree ++ "\n")

/-- Show the value of an expression. -/
def valueReply (fuel : Nat) (session : Session) (source : List UInt8) : Reply :=
  let (evaluation, session) := session.evaluate fuel source
  let text := session.takeText.1
  match evaluation.result with
  | none => rejected evaluation.errors
  | some (.ok value) => .success (text ++ value.text ++ "\n")
  | some (.error stop) => ⟨runtimeErrorCode, text, Error.listing stop.report.errors⟩

/-- Run a program. -/
def runReply (fuel : Nat) (session : Session) (source : List UInt8) : Reply :=
  let (report, session) := session.run fuel source
  ⟨report.status.code, session.takeText.1, Error.listing report.errors⟩

/-- Hand a file to what answers to its bytes. -/
def fileReply (name : String) (contents : Contents) (answer : List UInt8 → Reply) : Reply :=
  match contents with
  | .bytes bs => answer bs
  | .notOpened cause => .failure ("Failed to open file " ++ quotedName name) cause
  | .notRead cause => .failure ("Failed to read file " ++ quotedName name) cause

/-- The answer to a command without a file name. -/
def noFile : Reply := .success "No input filepath was provided. Exiting...\n"

/-- The answer to a command, given what its file contains and what stands on the input. -/
def Command.reply (fuel : Nat) (session : Session) (contents : String → Contents)
    (input : List UInt8) : Command → Reply
  | tokenize (some name) json => fileReply name (contents name) (tokensReply json)
  | parse (some name) json => fileReply name (contents name) (treeReply json)
  | evaluate (some name) => fileReply name (contents name) (valueReply fuel session)
  | run (some name) => fileReply name (contents name) (runReply fuel session)
  | tokenize none _ | parse none _ | evaluate none | run none => noFile
  | prompt => Prompt.converse fuel session (Prompt.lines input)

end Lox
