set_option autoImplicit false

/-! # UTF-8 text

Source code arrives as bytes. This module reads bytes as text in two ways: strictly, where one
ill-formed byte makes the whole text unreadable (`decode?`), and leniently, where every maximal
ill-formed part becomes one replacement character (`decodeLossy`).

Both readings come from one list of units (`units`): a unit is a character, or `none` for a
maximal ill-formed part, that is, the longest beginning of a well-formed sequence, or a single byte
that begins none. -/

namespace Lox.Utf8

/-! ## One unit -/

/-- What the first byte of a sequence promises: the high bits of the character and, for each byte
    to follow, the range it must lie in. The ranges leave out overlong forms, surrogates and
    characters past the last one. -/
structure Lead where
  bits : Nat
  ranges : List (UInt8 × UInt8)

/-- The range of a byte that continues a sequence. -/
def continuing : UInt8 × UInt8 := (0x80, 0xBF)

/-- The promise of a first byte; `none` for a byte that begins no sequence. -/
def Lead.ofByte? (b : UInt8) : Option Lead :=
  if b < 0x80 then some ⟨b.toNat, []⟩
  else if b < 0xC2 then none
  else if b < 0xE0 then some ⟨b.toNat - 0xC0, [continuing]⟩
  else if b = 0xE0 then some ⟨0, [(0xA0, 0xBF), continuing]⟩
  else if b = 0xED then some ⟨0x0D, [(0x80, 0x9F), continuing]⟩
  else if b < 0xF0 then some ⟨b.toNat - 0xE0, [continuing, continuing]⟩
  else if b = 0xF0 then some ⟨0, [(0x90, 0xBF), continuing, continuing]⟩
  else if b < 0xF4 then some ⟨b.toNat - 0xF0, [continuing, continuing, continuing]⟩
  else if b = 0xF4 then some ⟨4, [(0x80, 0x8F), continuing, continuing]⟩
  else none

/-- Read the bytes that a first byte promised: the code point, if all of them are there, and how
    many bytes belong to the sequence so far. -/
def follow (code : Nat) : List (UInt8 × UInt8) → List UInt8 → Option Nat × Nat
  | [], _ => (some code, 0)
  | _ :: _, [] => (none, 0)
  | (low, high) :: ranges, b :: bs =>
    if low ≤ b ∧ b ≤ high then
      let (result, count) := follow (code * 64 + b.toNat % 64) ranges bs
      (result, count + 1)
    else (none, 0)

/-- The unit that starts at a byte, and how many of the bytes after it belong to it. -/
def unit (b : UInt8) (bs : List UInt8) : Option Char × Nat :=
  match Lead.ofByte? b with
  | none => (none, 0)
  | some lead =>
    let (code, count) := follow lead.bits lead.ranges bs
    (code.map Char.ofNat, count)

/-! ## A whole text -/

/-- The units of a text, of which the first bytes may belong to a unit already read. -/
def unitsFrom : Nat → List UInt8 → List (Option Char)
  | _, [] => []
  | skip + 1, _ :: bs => unitsFrom skip bs
  | 0, b :: bs => (unit b bs).1 :: unitsFrom (unit b bs).2 bs

/-- The units of a text. -/
def units (bs : List UInt8) : List (Option Char) := unitsFrom 0 bs

theorem unitsFrom_eq_units_drop (skip : Nat) (bs : List UInt8) :
    unitsFrom skip bs = units (bs.drop skip) := by
  induction skip generalizing bs with
  | zero => rfl
  | succ skip ih => cases bs with
    | nil => rfl
    | cons b bs => simpa [unitsFrom] using ih bs

/-- The text of well-formed bytes. -/
def decode? (bs : List UInt8) : Option String :=
  ((units bs).mapM id).map String.ofList

/-- The text of any bytes, each ill-formed part replaced by U+FFFD. -/
def decodeLossy (bs : List UInt8) : String :=
  String.ofList ((units bs).map (·.getD '\uFFFD'))

/-- The bytes of a text. -/
def encode (s : String) : List UInt8 := s.toUTF8.toList

end Lox.Utf8
