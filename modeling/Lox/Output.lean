set_option autoImplicit false

/-! # Output

What a program writes. The output takes text in chunks. It may be limited to a number of lines:
once so many line ends have been written it is full and takes no further chunk, except an empty one.
A chunk is taken as a whole or not at all. -/

namespace Lox

/-- The text written so far and what the output can bear. -/
structure Output where
  text : String
  /-- The number of line ends written. -/
  lines : Nat
  /-- The number of line ends after which the output is full. -/
  limit : Option Nat
  /-- Whether flushing the output fails. -/
  flushFails : Bool

namespace Output

/-- An empty output. -/
def start (limit : Option Nat) (flushFails : Bool) : Output := ⟨"", 0, limit, flushFails⟩

def isFull (out : Output) : Bool :=
  match out.limit with
  | none => false
  | some limit => limit ≤ out.lines

/-- The number of line ends in a text. -/
def lineEnds (s : String) : Nat := s.toList.count '\n'

/-- Whether the output takes a chunk. -/
def accepts (out : Output) (chunk : String) : Bool := chunk.isEmpty || !out.isFull

/-- The output after a chunk. -/
def append (out : Output) (chunk : String) : Output :=
  { out with text := out.text ++ chunk, lines := out.lines + lineEnds chunk }

/-- Take out the text written so far. -/
def takeText (out : Output) : String × Output := (out.text, { out with text := "" })

end Output

end Lox
