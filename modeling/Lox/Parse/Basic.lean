import Lox.Error
import Lox.Tree

set_option autoImplicit false

/-! # Parsing: steps

A parse reads tokens from left to right and hands out identities to references. A rule of the
grammar is a `Parser`: it gives a tree and the tokens left over, or it fails at a token. Some
mistakes do not keep a rule from going on; they are reported in the state and the rule continues.

A parse always stands at a token, at last at the one that marks the end of input. A step that looks
for a token where there is none ends the whole parse. Tokens are dropped as they are read; a parse
that keeps them all and moves an index does the same (`Reader.indexed_simulates`).

Each loop is bounded by the tokens still to be read, and so is the depth of nested rules: an
iteration and a nested rule always use up at least one token. -/

namespace Lox.Parse

/-- What is wrong with the syntax, and at which token. -/
structure Mistake where
  token : Token
  problem : SyntaxProblem

def Mistake.error (m : Mistake) : Error := .parse m.token m.problem

/-- Why a rule does not go on. -/
inductive Failure where
  | mistake (m : Mistake)
  /-- There is no token where the rule looked for one. -/
  | outOfTokens

/-- Where a parse stands. -/
structure State where
  /-- The tokens still to be read before the end of input. -/
  rest : List Token
  /-- The token that marks the end of input, if there is one. -/
  final : Option Token
  /-- The identity of the next reference. -/
  nextId : RefId
  /-- The mistakes reported so far. -/
  reported : Array Mistake

/-- A rule of the grammar. -/
abbrev Parser := EStateM Failure State

/-! ## Start -/

def isEnd (t : Token) : Bool := t.kind.sameAs .endOfInput

/-- Tokens with an end of input behind them if they do not end with one. -/
def terminated (tokens : List Token) : List Token :=
  if tokens.getLast?.any isEnd then tokens
  else tokens ++ [⟨.endOfInput, "", (tokens.getLast?.map Token.line).getD 1⟩]

/-- The state before the first token. What stands behind the first end token does not count. -/
def State.start (tokens : List Token) (firstId : RefId) : State where
  rest := (terminated tokens).takeWhile fun t => !isEnd t
  final := (terminated tokens).find? isEnd
  nextId := firstId
  reported := #[]

/-! ## Steps -/

variable {α : Type}

/-- The token at which a parse stands. -/
def State.next? (s : State) : Option Token := s.rest.head?.or s.final

/-- The next token, without reading it. -/
def peek : Parser Token := fun s =>
  match s.next? with
  | some t => .ok t s
  | none => .error .outOfTokens s

/-- Read one token, unless it is the end of input. -/
def advance : Parser Unit := do
  let _ ← peek
  modify fun s => { s with rest := s.rest.tail }

/-- Whether all tokens have been read. -/
def atEnd : Parser Bool := do
  let _ ← peek
  return (← get).rest.isEmpty

/-- Fail at the next token. -/
def fail (problem : SyntaxProblem) : Parser α := do
  throw (.mistake ⟨← peek, problem⟩)

/-- Report a mistake at a token and go on. -/
def reportAt (token : Token) (problem : SyntaxProblem) : Parser Unit :=
  fun s => .ok () { s with reported := s.reported.push ⟨token, problem⟩ }

/-- Report a mistake at the next token and go on. -/
def report (problem : SyntaxProblem) : Parser Unit := do reportAt (← peek) problem

/-- An identity that no reference has yet. -/
def freshId : Parser RefId := fun s => .ok s.nextId { s with nextId := s.nextId + 1 }

/-- Read the next token if its kind passes a test. -/
def takeIf (test : Kind → Bool) : Parser (Option Token) := do
  let _ ← peek
  fun s => match s.rest with
    | [] => .ok none s
    | t :: ts => if test t.kind then .ok (some t) { s with rest := ts } else .ok none s

/-- Read the next token if it is of a kind. -/
def take? (kind : Kind) : Parser (Option Token) := takeIf kind.sameAs

/-- Whether the next token is of a kind. -/
def nextIs (kind : Kind) : Parser Bool := do
  let _ ← peek
  return ((← get).rest.head?.map fun t => kind.sameAs t.kind).getD false

/-- Read a token of a kind, or fail. -/
def expect (kind : Kind) (problem : SyntaxProblem) : Parser Token := do
  match ← take? kind with
  | some t => return t
  | none => fail problem

/-! ## Loops -/

/-- Repeat a step until it gives nothing, at most once for each token of a list. -/
def repeatOver (step : α → Parser (Option α)) : List Token → α → Parser α
  | [], a => pure a
  | _ :: bound, a => do
    match ← step a with
    | none => pure a
    | some a => repeatOver step bound a

/-- Repeat a step until it gives nothing. A step that gives something must read a token. -/
def repeatFrom (a : α) (step : α → Parser (Option α)) : Parser α := fun s =>
  repeatOver step s.rest a s

/-- The bound on parameters and on arguments. -/
def maxArity : Nat := 255

/-- One or more items with commas between them. Too many are reported, at each item too many. -/
def commaList (tooMany : SyntaxProblem) (item : Parser α) : Parser (List α) := do
  let first ← item
  let items ← repeatFrom #[first] fun items => do
    match ← take? .comma with
    | none => return none
    | some _ =>
      if maxArity ≤ items.size then report tooMany
      return some (items.push (← item))
  return items.toList

end Lox.Parse
