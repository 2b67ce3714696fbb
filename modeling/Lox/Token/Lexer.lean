import Lox.Error
import Lox.Text.Utf8

set_option autoImplicit false

/-! # Cutting a source into tokens

A source is a list of bytes. It is cut into pieces (`pieces`): blanks, comments, tokens and pieces
that are no token. How far a piece goes is decided by its first byte and the bytes after it
(`extent`); what a piece is depends on its own bytes alone (`Reading.ofText`). No byte is lost:
the pieces put together are the source (`flatMap_text_pieces`).

The items of a source are its tokens and lexical errors in order, each on the line on which its
piece ends, and at the end the token `endOfInput`. -/

namespace Lox.Lexer

/-! ## Bytes -/

/-- The byte of an ASCII character. -/
def byte (c : Char) : UInt8 := UInt8.ofNat c.toNat

def newline : UInt8 := byte '\n'

def quote : UInt8 := byte '"'

def isDigit (b : UInt8) : Bool := byte '0' ≤ b && b ≤ byte '9'

/-- The bytes that begin a word: ASCII letters and the underscore. -/
def isWordStart (b : UInt8) : Bool :=
  byte 'a' ≤ b && b ≤ byte 'z' || byte 'A' ≤ b && b ≤ byte 'Z' || b == byte '_'

def isWordPart (b : UInt8) : Bool := isWordStart b || isDigit b

def isBlank (b : UInt8) : Bool :=
  b == byte ' ' || b == byte '\r' || b == byte '\t' || b == newline

/-- The bytes that continue a character of several bytes. -/
def isContinuation (b : UInt8) : Bool := b &&& 0xC0 == 0x80

/-- The operators that an equals sign extends. -/
def takesEqual (b : UInt8) : Bool :=
  b == byte '!' || b == byte '=' || b == byte '<' || b == byte '>'

/-! ## How far a piece goes -/

/-- How many bytes at the front satisfy a test. -/
def runLength (test : UInt8 → Bool) (bs : List UInt8) : Nat := (bs.takeWhile test).length

/-- The bytes of a number after its first digit: more digits, and a fraction if a digit follows
    the point. -/
def numberExtent (bs : List UInt8) : Nat :=
  let whole := runLength isDigit bs
  match bs.drop whole with
  | point :: digit :: rest =>
    if point == byte '.' && isDigit digit then whole + 2 + runLength isDigit rest else whole
  | _ => whole

/-- The bytes of a string after its opening quote: up to the closing quote, or all there are. -/
def stringExtent (bs : List UInt8) : Nat :=
  let body := runLength (· != quote) bs
  if body < bs.length then body + 1 else body

/-- How many of the bytes after the first byte belong to its piece. -/
def extent (b : UInt8) (bs : List UInt8) : Nat :=
  if b == quote then stringExtent bs
  else if isDigit b then numberExtent bs
  else if isWordStart b then runLength isWordPart bs
  else if b == byte '/' then
    if bs.head? == some (byte '/') then runLength (· != newline) bs else 0
  else if takesEqual b then
    if bs.head? == some (byte '=') then 1 else 0
  else if 0x80 ≤ b then runLength isContinuation bs
  else 0

/-! ## What a piece is -/

/-- What a piece of the source is. -/
inductive Reading where
  | blank
  | comment
  | token (kind : Kind)
  | problem (problem : LexicalProblem)

/-- The number that digits denote, read from the left. -/
def digitsValue (bs : List UInt8) : Nat :=
  bs.foldl (fun n b => n * 10 + (b - byte '0').toNat) 0

/-- The double nearest to a number of digits with at most one point between them. -/
def numberValue (text : List UInt8) : Float :=
  let fraction := (text.dropWhile isDigit).drop 1
  Number.nearest (digitsValue (text.filter isDigit)) (Nat.pow 10 fraction.length)

/-- The reading of a string, given all that follows its opening quote: the closing quote must be
    there, and the bytes before it must be text. -/
def Reading.ofString (rest : List UInt8) : Reading :=
  if rest.getLast? == some quote then
    match Utf8.decode? rest.dropLast with
    | some s => .token (.string s)
    | none => .problem .unreadableString
  else .problem .unterminatedString

/-- What a piece is, by its bytes. -/
def Reading.ofText : List UInt8 → Reading
  | [] => .blank
  | b :: rest =>
    if isBlank b then .blank
    else if b == quote then .ofString rest
    else if isDigit b then .token (.number (numberValue (b :: rest)))
    else
      let lexeme := Utf8.decodeLossy (b :: rest)
      if isWordStart b then .token (.ofWord lexeme)
      else if b == byte '/' && rest.head? == some (byte '/') then .comment
      else match Kind.symbols.lookup lexeme with
        | some kind => .token kind
        | none => .problem (.unexpectedCharacter lexeme)

/-! ## Pieces -/

/-- A piece of the source. -/
structure Piece where
  text : List UInt8
  reading : Reading

/-- The pieces of a source, of which the first bytes may belong to a piece already cut. -/
def piecesFrom : Nat → List UInt8 → List Piece
  | _, [] => []
  | skip + 1, _ :: bs => piecesFrom skip bs
  | 0, b :: bs =>
    let text := b :: bs.take (extent b bs)
    ⟨text, .ofText text⟩ :: piecesFrom (extent b bs) bs

/-- The pieces of a source. -/
def pieces (source : List UInt8) : List Piece := piecesFrom 0 source

theorem piecesFrom_eq_pieces_drop (skip : Nat) (bs : List UInt8) :
    piecesFrom skip bs = pieces (bs.drop skip) := by
  induction skip generalizing bs with
  | zero => rfl
  | succ skip ih => cases bs with
    | nil => rfl
    | cons b bs => simpa [piecesFrom] using ih bs

theorem flatMap_text_piecesFrom (bs : List UInt8) :
    ∀ skip, (piecesFrom skip bs).flatMap Piece.text = bs.drop skip := by
  induction bs with
  | nil => intro skip; cases skip <;> rfl
  | cons b bs ih =>
    intro skip
    cases skip with
    | zero => simp [piecesFrom, ih, List.take_append_drop]
    | succ skip => simpa [piecesFrom] using ih skip

/-- The pieces put together are the source. -/
theorem flatMap_text_pieces (source : List UInt8) :
    (pieces source).flatMap Piece.text = source := by
  simpa [pieces] using flatMap_text_piecesFrom source 0

/-! ## Items -/

/-- A token or a lexical error. -/
abbrev Item := Except Error Token

/-- The item of a piece that ends on a line, if it is one. -/
def Piece.item? (line : Nat) (p : Piece) : Option Item :=
  match p.reading with
  | .token kind => some (.ok ⟨kind, Utf8.decodeLossy p.text, line⟩)
  | .problem problem => some (.error (.lexical line problem))
  | _ => none

/-- The items of pieces that follow each other from a line on, and the end of input behind them. -/
def itemsFrom (line : Nat) : List Piece → List Item
  | [] => [.ok ⟨.endOfInput, "", line⟩]
  | p :: ps =>
    let line := line + p.text.count newline
    (p.item? line).toList ++ itemsFrom line ps

/-- The tokens and lexical errors of a source, in order. -/
def items (source : List UInt8) : List Item := itemsFrom 1 (pieces source)

/-- The tokens of a source; the last one is its end. -/
def tokens (source : List UInt8) : List Token :=
  (items source).filterMap fun | .ok t => some t | .error _ => none

/-- The lexical errors of a source. -/
def errors (source : List UInt8) : List Error :=
  (items source).filterMap fun | .ok _ => none | .error e => some e

end Lox.Lexer
