import Lox.Number.Format
import Lox.Proofs.Lexer.Characters
import Mathlib.Algebra.Group.Nat.Defs

set_option autoImplicit false

/-! # The texts of numbers

Digits, and digits with a point between them, write a fraction of natural numbers (`Writes`). The
scanner takes such a text as one number, the double nearest to the fraction (`Writes.lexeme`). The
digits of a natural number are such a text, and so is a decimal without an exponent. -/

namespace Lox.Number

open Lexer (byte)

/-! ## Texts -/

/-- The texts that write `num / 10 ^ places`. There is a digit before the point and one behind it. -/
inductive Writes : (num places : Nat) → List Char → Prop where
  | whole {digits : List Char} : digits ≠ [] → (∀ c ∈ digits, c.isDigit = true) →
      Writes (Nat.ofDigitChars 10 digits 0) 0 digits
  | fraction {digits decimals : List Char} : digits ≠ [] → decimals ≠ [] →
      (∀ c ∈ digits, c.isDigit = true) → (∀ c ∈ decimals, c.isDigit = true) →
      Writes (Nat.ofDigitChars 10 (digits ++ decimals) 0) decimals.length
        (digits ++ '.' :: decimals)

/-! ## Scanning a text -/

theorem ascii_of_isDigit {c : Char} (h : c.isDigit = true) : c.toNat < 0x80 := by
  refine Lexer.ascii_of_beginsToken ?_
  simp [Lexer.beginsToken, h]

theorem byte_of_isDigit {c : Char} (h : c.isDigit = true) :
    Lexer.isDigit (byte c) = true ∧ (byte c - byte '0').toNat = c.toNat - '0'.toNat :=
  Lexer.ascii_forall (P := fun c b => c.isDigit = true →
    Lexer.isDigit b = true ∧ (b - byte '0').toNat = c.toNat - '0'.toNat)
    (by decide +kernel) (ascii_of_isDigit h) h

section

variable {digits decimals : List Char}

theorem ofChars_digits (h : ∀ c ∈ digits, c.isDigit = true) :
    Utf8.ofChars digits = digits.map byte := by
  induction digits with
  | nil => rfl
  | cons c cs ih =>
    obtain ⟨hc, hcs⟩ := List.forall_mem_cons.1 h
    rw [Lexer.ofChars_cons_byte (ascii_of_isDigit hc), ih hcs, List.map_cons]

theorem isDigit_bytes (h : ∀ c ∈ digits, c.isDigit = true) :
    ∀ b ∈ digits.map byte, Lexer.isDigit b = true :=
  List.forall_mem_map.2 fun c hc => (byte_of_isDigit (h c hc)).1

theorem digitsValue_bytes (h : ∀ c ∈ digits, c.isDigit = true) :
    Lexer.digitsValue (digits.map byte) = Nat.ofDigitChars 10 digits 0 := by
  unfold Lexer.digitsValue Nat.ofDigitChars
  rw [List.foldl_map]
  generalize 0 = start
  induction digits generalizing start with
  | nil => rfl
  | cons c cs ih =>
    obtain ⟨hc, hcs⟩ := List.forall_mem_cons.1 h
    rw [List.foldl_cons, List.foldl_cons, (byte_of_isDigit hc).2, Nat.mul_comm]
    exact ih hcs _

theorem numberValue_whole (h : ∀ c ∈ digits, c.isDigit = true) :
    Lexer.numberValue (digits.map byte) = nearest (Nat.ofDigitChars 10 digits 0) (10 ^ 0) := by
  have hdigits := isDigit_bytes h
  have hrest : (digits.map byte).dropWhile Lexer.isDigit = [] := by
    rw [List.dropWhile_eq_nil_iff]
    exact hdigits
  rw [Lexer.numberValue, hrest, List.filter_eq_self.2 hdigits, digitsValue_bytes h]
  rfl

theorem numberValue_fraction (h : ∀ c ∈ digits, c.isDigit = true)
    (h' : ∀ c ∈ decimals, c.isDigit = true) :
    Lexer.numberValue (digits.map byte ++ byte '.' :: decimals.map byte) =
      nearest (Nat.ofDigitChars 10 (digits ++ decimals) 0) (10 ^ decimals.length) := by
  have hdigits := isDigit_bytes h
  have hdecimals := isDigit_bytes h'
  have hpoint : ¬ Lexer.isDigit (byte '.') = true := by decide
  have hrest : (digits.map byte ++ byte '.' :: decimals.map byte).dropWhile Lexer.isDigit =
      byte '.' :: decimals.map byte := by
    rw [List.dropWhile_append_of_pos hdigits, List.dropWhile_cons_of_neg hpoint]
  have hfilter : (digits.map byte ++ byte '.' :: decimals.map byte).filter Lexer.isDigit =
      (digits ++ decimals).map byte := by
    rw [List.filter_append, List.filter_cons_of_neg hpoint, List.filter_eq_self.2 hdigits,
      List.filter_eq_self.2 hdecimals, List.map_append]
  rw [Lexer.numberValue, hrest, hfilter, digitsValue_bytes (List.forall_mem_append.2 ⟨h, h'⟩),
    List.drop_one, List.tail_cons, List.length_map]
  rfl

end

/-- A text that writes a fraction is a lexeme, the double nearest to the fraction. -/
theorem Writes.lexeme {num places : Nat} {text : List Char} (h : Writes num places text) :
    Lexer.Lexeme (.number (nearest num (10 ^ places))) (Utf8.ofChars text) := by
  cases h with
  | whole hne hdigits =>
    obtain ⟨c, cs, rfl⟩ := List.exists_cons_of_ne_nil hne
    rw [← numberValue_whole hdigits, ofChars_digits hdigits]
    have hbytes := List.forall_mem_cons.1 (isDigit_bytes hdigits)
    exact .whole hbytes.1 hbytes.2
  | @fraction digits decimals hne hne' hdigits hdecimals =>
    obtain ⟨c, cs, rfl⟩ := List.exists_cons_of_ne_nil hne
    obtain ⟨d, ds, rfl⟩ := List.exists_cons_of_ne_nil hne'
    rw [← numberValue_fraction hdigits hdecimals, Utf8.ofChars_append, ofChars_digits hdigits,
      Lexer.ofChars_cons_byte (by decide), ofChars_digits hdecimals]
    have hbytes := List.forall_mem_cons.1 (isDigit_bytes hdigits)
    have hbytes' := List.forall_mem_cons.1 (isDigit_bytes hdecimals)
    exact .fraction hbytes.1 hbytes.2 hbytes'.1 hbytes'.2

/-! ## Writing a number -/

theorem isDigit_of_mem_digitText {n : Nat} : ∀ c ∈ digitText n, c.isDigit = true := fun _ hc =>
  Nat.isDigit_of_mem_toDigits (by decide) (by decide) hc

theorem isDigit_of_mem_zeros {n : Nat} : ∀ c ∈ List.replicate n '0', c.isDigit = true := by
  intro c hc
  rw [List.eq_of_mem_replicate hc]
  rfl

/-- The digits of a natural number, with zeros around them. -/
theorem ofDigitChars_padded (before n after : Nat) :
    Nat.ofDigitChars 10 (List.replicate before '0' ++ digitText n ++ List.replicate after '0') 0 =
      n * 10 ^ after := by
  have hdigits : Nat.ofDigitChars 10 (digitText n) 0 = n := Nat.ofDigitChars_ten_toDigits
  rw [Nat.ofDigitChars_append, Nat.ofDigitChars_append, Nat.ofDigitChars_replicate_zero,
    Nat.ofDigitChars_replicate_zero, Nat.mul_zero, hdigits, Nat.mul_comm]

theorem digitText_ne_nil (n : Nat) : digitText n ≠ [] := Nat.toDigits_ne_nil

/-- The digits of a number with zeros behind them, as many as there are tens to multiply it by. -/
theorem writes_digitText (n zeros : Nat) :
    Writes (n * 10 ^ zeros) 0 (digitText n ++ List.replicate zeros '0') := by
  rw [← ofDigitChars_padded 0, List.replicate_zero, List.nil_append]
  refine .whole (List.append_ne_nil_of_left_ne_nil (digitText_ne_nil n) _) ?_
  exact List.forall_mem_append.2 ⟨isDigit_of_mem_digitText, isDigit_of_mem_zeros⟩

/-- A whole number with a zero behind the point. -/
theorem writes_digitText_point (n : Nat) : Writes (n * 10) 1 (digitText n ++ ['.', '0']) := by
  have hvalue : Nat.ofDigitChars 10 (digitText n ++ ['0']) 0 = n * 10 := ofDigitChars_padded 0 n 1
  rw [← hvalue]
  exact .fraction (digitText_ne_nil n) (List.cons_ne_nil _ _) isDigit_of_mem_digitText
    (isDigit_of_mem_zeros (n := 1))

/-- A decimal without an exponent is the number that it writes. -/
theorem writes_positional (d : Decimal) :
    Writes (d.digits * 10 ^ d.exponent.toNat) (-d.exponent).toNat d.positional := by
  unfold Decimal.positional
  dsimp only
  split
  · next hexponent =>
    have hplaces : (-d.exponent).toNat = 0 := by omega
    rw [hplaces]
    exact writes_digitText _ _
  · next hexponent =>
    have hpower : d.exponent.toNat = 0 := by omega
    have hplaces : 0 < (-d.exponent).toNat := by omega
    rw [hpower]
    generalize (-d.exponent).toNat = places at hplaces
    have hvalue := ofDigitChars_padded (places + 1 - (digitText d.digits).length) d.digits 0
    have hdigits : ∀ c ∈ List.replicate (places + 1 - (digitText d.digits).length) '0' ++
        digitText d.digits, c.isDigit = true :=
      List.forall_mem_append.2 ⟨isDigit_of_mem_zeros, isDigit_of_mem_digitText⟩
    have hlength : places < (List.replicate (places + 1 - (digitText d.digits).length) '0' ++
        digitText d.digits).length := by
      rw [List.length_append, List.length_replicate]
      omega
    rw [List.replicate_zero, List.append_nil] at hvalue
    rw [← hvalue]
    generalize List.replicate (places + 1 - (digitText d.digits).length) '0' ++
      digitText d.digits = padded at hdigits hlength
    -- the point leaves as many digits behind it as there are places
    have hdecimals : (padded.drop (padded.length - places)).length = places := by
      rw [List.length_drop]
      omega
    have hwhole : 0 < (padded.take (padded.length - places)).length := by
      rw [List.length_take]
      omega
    have hwrites := Writes.fraction (List.ne_nil_of_length_pos hwhole)
      (List.ne_nil_of_length_pos (by omega : 0 < (padded.drop (padded.length - places)).length))
      (fun c hc => hdigits c (List.mem_of_mem_take hc))
      (fun c hc => hdigits c (List.mem_of_mem_drop hc))
    rwa [List.take_append_drop, hdecimals] at hwrites

end Lox.Number
