import Lox.Number.Format

set_option autoImplicit false

/-! # Documents

Trees and tokens can be exported as JSON documents. A document keeps the order of its fields.
`Document.render` writes one item to a line, indented by two spaces for each level. -/

namespace Lox

/-- A JSON value. Counts are natural numbers, numbers are doubles. -/
inductive Document where
  | null
  | text (value : String)
  | count (value : Nat)
  | number (value : Float)
  | list (items : List Document)
  | fields (items : List (String × Document))

namespace Document

/-- A document with a single field, as a variant with data is written. -/
def tagged (tag : String) (content : Document) : Document := .fields [(tag, content)]

/-- A document or null. -/
def ofOption : Option Document → Document
  | none => .null
  | some d => d

/-! ## Text -/

/-- A digit below 16. -/
def hexDigit (n : Nat) : Char := Nat.digitChar n

/-- The escaped form of a character: quotes, backslashes and control characters are escaped. -/
def escape (c : Char) : List Char :=
  if c = '"' then ['\\', '"']
  else if c = '\\' then ['\\', '\\']
  else if c = '\n' then ['\\', 'n']
  else if c = '\r' then ['\\', 'r']
  else if c = '\t' then ['\\', 't']
  else if c.toNat = 8 then ['\\', 'b']
  else if c.toNat = 12 then ['\\', 'f']
  else if c.toNat < 32 then
    ['\\', 'u', '0', '0', hexDigit (c.toNat / 16), hexDigit (c.toNat % 16)]
  else [c]

/-- A text in quotes. -/
def quoted (s : String) : String := String.ofList ('"' :: s.toList.flatMap escape ++ ['"'])

/-! ## Layout -/

/-- The start of a line at a level. -/
def newLine (level : Nat) : String := String.ofList ('\n' :: List.replicate (2 * level) ' ')

/-- Items between brackets, each on a line of its own; without items the brackets alone. -/
def bracketed (level : Nat) (opening closing : String) (items : List String) : String :=
  match items with
  | [] => opening ++ closing
  | items =>
    opening ++ newLine (level + 1) ++ ("," ++ newLine (level + 1)).intercalate items
      ++ newLine level ++ closing

mutual

/-- A document at a level of indentation. -/
def renderAt (level : Nat) : Document → String
  | .null => "null"
  | .text value => quoted value
  | .count value => toString value
  | .number value => (Number.inDocument? value).getD "null"
  | .list items => bracketed level "[" "]" (renderItems (level + 1) items)
  | .fields items => bracketed level "\x7b" "\x7d" (renderFields (level + 1) items)

def renderItems (level : Nat) : List Document → List String
  | [] => []
  | d :: ds => renderAt level d :: renderItems level ds

def renderFields (level : Nat) : List (String × Document) → List String
  | [] => []
  | (key, d) :: rest => (quoted key ++ ": " ++ renderAt level d) :: renderFields level rest

end

/-- A document as text. -/
def render (d : Document) : String := renderAt 0 d

end Document

end Lox
