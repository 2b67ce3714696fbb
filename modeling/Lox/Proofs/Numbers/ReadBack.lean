import Lox.Proofs.Grammar.Acceptance
import Lox.Proofs.Lexer.Longest
import Lox.Proofs.Numbers.Rounding
import Lox.Proofs.Numbers.Texts
import Lox.Proofs.Run.Printing
import Lox.Tree.Printer

set_option autoImplicit false

/-! # Numbers are read back as they are written

A whole number is written with all its digits, which are exactly the number, and any other number by
its shortest decimal, which lies in its rounding interval. So the text of a finite double is a sign,
if the double is negative, and the text of a fraction that is read as the double
(`Format.write_spec`). -/

namespace Lox

namespace Number

/-! ## The text of a double -/

/-- The formats whose whole numbers are texts of fractions, zero at least being written as one. -/
structure Format.Readable (format : Format) : Prop where
  suffix : format.suffix = "" ∨ format.suffix = ".0"
  zero : format.admits 0 = true

theorem readable_printed : printed.Readable := ⟨.inl rfl, rfl⟩

theorem readable_inTree : inTree.Readable := ⟨.inr rfl, rfl⟩

theorem readable_literal : literal.Readable := ⟨.inr rfl, by decide⟩

section

variable {v : Magnitude} {n : Nat}

theorem Magnitude.units_of_whole? (h : v.whole? = some n) : n * unitsPerOne = v.units := by
  unfold whole? at h
  split at h
  · next hrest =>
    rw [← Option.some.inj h]
    exact Nat.div_mul_cancel (Nat.dvd_of_mod_eq_zero hrest)
  · cases h

theorem Magnitude.whole?_zero (h : v.mantissa = 0) : v.whole? = some 0 := by
  have hunits : v.units = 0 := by rw [units, h, Nat.zero_mul]
  rw [whole?, hunits, Nat.zero_mod, Nat.zero_div]
  rfl

/-- A whole number that is written with all its digits is read as it was. -/
theorem nearest_whole (h : v.IsDouble) (hwhole : v.whole? = some n) (places : Nat) :
    nearest (n * 10 ^ places) (10 ^ places) = v.double := by
  refine nearest_eq h (Nat.pow_pos (by decide)) (covers_of_eq (Nat.pow_pos (by decide)) ?_)
  rw [← Magnitude.units_of_whole? hwhole, Nat.mul_right_comm]

theorem nearest_shortest (h : v.IsDouble) (hzero : v.mantissa ≠ 0) (tie : Tie) :
    nearest ((v.shortest tie).digits * 10 ^ (v.shortest tie).exponent.toNat)
      (10 ^ (-(v.shortest tie).exponent).toNat) = v.double :=
  nearest_eq h (Nat.pow_pos (by decide)) (covers_shortest tie hzero)

/-- The text of a magnitude in a format, its sign left aside. -/
theorem Format.Readable.writes {format : Format} (hformat : format.Readable) :
    ∃ zeros, Writes (n * 10 ^ zeros) zeros (digitText n ++ format.suffix.toList) := by
  rcases hformat.suffix with hsuffix | hsuffix
  · rw [hsuffix]
    exact ⟨0, writes_digitText n 0⟩
  · rw [hsuffix]
    exact ⟨1, writes_digitText_point n⟩

/-- The text of a finite double is that of a fraction, behind a minus sign if the double is negative,
    and the fraction is read as the double without its sign. A format that gives zero no sign does so
    for the positive zero. -/
theorem Format.write_spec {format : Format} (hformat : format.Readable) {x : Float}
    (hfinite : x.isFinite = true) (hsign : format.signedZero = true ∨ x.toBits.toNat < 2 ^ 63) :
    ∃ negative text num places, format.write x = String.ofList (sign negative ++ text) ∧
      (negative = true → 2 ^ 63 ≤ x.toBits.toNat) ∧ Writes num places text ∧
      x = if negative then -nearest num (10 ^ places) else nearest num (10 ^ places) := by
  obtain ⟨negative, v, hparts, hdouble, rfl⟩ := exists_parts hfinite
  have hnegative : negative = true →
      2 ^ 63 ≤ (if negative then -v.double else v.double).toBits.toNat := by
    rintro rfl
    rw [if_pos rfl, hdouble.toBits_neg_double]
    exact Nat.le_add_right _ _
  unfold write
  rw [hparts]
  dsimp only
  cases hwhole : v.whole?.filter format.admits with
  | some n =>
    obtain ⟨hwhole, -⟩ := Option.filter_eq_some_iff.1 hwhole
    obtain ⟨zeros, hwrites⟩ := hformat.writes (n := n)
    have hkept : (negative && (format.signedZero || n != 0)) = negative := by
      rcases hsign with hsigned | hpositive
      · rw [hsigned, Bool.true_or, Bool.and_true]
      · cases negative with
        | false => rfl
        | true => exact absurd (hnegative rfl) (Nat.not_le.2 hpositive)
    refine ⟨negative, _, _, _, ?_, hnegative, hwrites, ?_⟩
    · dsimp only
      rw [hkept, ← String.toList_inj]
      simp
    · rw [nearest_whole hdouble hwhole]
  | none =>
    -- zero is whole and is written with all its digits
    have hzero : v.mantissa ≠ 0 := by
      intro hzero
      rw [Magnitude.whole?_zero hzero, Option.filter_some, hformat.zero] at hwhole
      cases hwhole
    refine ⟨negative, _, _, _, rfl, hnegative, writes_positional _, ?_⟩
    rw [nearest_shortest hdouble hzero]

end

/-- What is read from a text has no sign. -/
theorem toBits_nearest_lt {num den : Nat} (hfinite : (nearest num den).isFinite = true) :
    (nearest num den).toBits.toNat < 2 ^ 63 := by
  have hle : nearestBits num den ≤ infinityBits := Nat.min_le_right _ _
  have hinfinity : infinityBits = 2047 * 2 ^ 52 := rfl
  have hsize : nearestBits num den < UInt64.size := Nat.lt_of_le_of_lt hle (by decide)
  have hbits : (nearestBits num den).toUInt64.toNat = nearestBits num den :=
    UInt64.toNat_ofNat_of_lt' hsize
  rcases Nat.lt_or_eq_of_le hle with hlt | heq
  · rw [nearest, toBits_ofBits (by rw [hbits]; omega), hbits]
    omega
  · rw [nearest, heq] at hfinite
    exact absurd hfinite (by decide +kernel)

end Number

open Lexer (byte items tokens)

/-! ## Scanning a number -/

namespace Lexer

variable {value : Float} {text : List UInt8}

theorem Lexeme.newline_not_mem (h : Lexeme (.number value) text) : newline ∉ text := by
  have hdigit : ∀ x, isDigit x = true → newline ≠ x := by
    rintro _ h rfl
    cases h
  generalize hkind : Kind.number value = kind at h
  cases h with
  | symbol hmem => subst hkind; simp [Kind.symbols] at hmem
  | keyword hmem => subst hkind; simp [Kind.keywords] at hmem
  | name _ _ _ | string _ _ => cases hkind
  | whole hfirst hdigits =>
    exact fun hmem => (List.mem_cons.1 hmem).elim (hdigit _ hfirst)
      fun hmem => hdigit _ (hdigits _ hmem) rfl
  | fraction hfirst hdigits hdecimal hdecimals =>
    rw [List.mem_cons, List.mem_append, List.mem_cons, List.mem_cons]
    rintro (h | h | h | h | h)
    · exact hdigit _ hfirst h
    · exact hdigit _ (hdigits _ h) rfl
    · cases h
    · exact hdigit _ hdecimal h
    · exact hdigit _ (hdecimals _ h) rfl

theorem Lexeme.eq_numberValue (h : Lexeme (.number value) text) : value = numberValue text := by
  generalize hkind : Kind.number value = kind at h
  cases h with
  | symbol hmem => subst hkind; simp [Kind.symbols] at hmem
  | keyword hmem => subst hkind; simp [Kind.keywords] at hmem
  | name _ _ _ | string _ _ => cases hkind
  | whole _ _ | fraction _ _ _ _ => exact Kind.number.inj hkind

/-- A source that is one number is one token. -/
theorem Lexeme.items_eq (h : Lexeme (.number value) text) : items text =
    [.ok ⟨.number value, Utf8.decodeLossy text, 1⟩, .ok ⟨.endOfInput, "", 1⟩] := by
  have hcount : text.count newline = 0 := List.count_eq_zero.2 h.newline_not_mem
  rw [items, h.pieces_eq, itemsFrom, hcount]
  rfl

/-- A minus sign in front of a source is a token of its own. -/
theorem items_minus (source : List UInt8) :
    items (byte '-' :: source) = .ok ⟨.minus, "-", 1⟩ :: items source := by
  have hextent : extent (byte '-') source = 0 := rfl
  rw [items, pieces_cons, hextent]
  rfl

end Lexer

/-! ## Reading a number -/

section

variable {session : Session} {source : List UInt8} {value : Float} {lexeme : String}

theorem Session.evaluate_number
    (h : items source = [.ok ⟨.number value, lexeme, 1⟩, .ok ⟨.endOfInput, "", 1⟩]) (fuel : Nat) :
    session.evaluate (fuel + 1) source =
      (⟨some (.literal (.number value)), [], some (.ok (.number value))⟩, session) := by
  have hlexical : Lexer.errors source = [] := by rw [Lexer.errors, h]; rfl
  have htokens : tokens source = [⟨.number value, lexeme, 1⟩] ++ [⟨.endOfInput, "", 1⟩] := by
    rw [tokens, h]; rfl
  have hreads : Grammar.Reads true .expression session.nextId [⟨.number value, lexeme, 1⟩]
      (.literal (.number value)) session.nextId [] :=
    .expression_of_call (.primaryCall (.constant rfl))
  have hfinal : Token.kind ⟨.endOfInput, "", 1⟩ = .endOfInput := rfl
  have hparsed := Grammar.singleExpression_of_reads (by simp) hfinal hreads
  rw [← htokens] at hparsed
  rw [Session.evaluate_of_parsed hlexical hparsed]
  rfl

theorem Session.evaluate_minus_number
    (h : items source = [.ok ⟨.number value, lexeme, 1⟩, .ok ⟨.endOfInput, "", 1⟩]) (fuel : Nat) :
    session.evaluate (fuel + 2) (byte '-' :: source) =
      (⟨some (.unary ⟨.minus, "-", 1⟩ (.literal (.number value))), [],
        some (.ok (.number (-value)))⟩, session) := by
  have hitems := Lexer.items_minus source
  rw [h] at hitems
  have hlexical : Lexer.errors (byte '-' :: source) = [] := by rw [Lexer.errors, hitems]; rfl
  have htokens : tokens (byte '-' :: source) =
      [⟨.minus, "-", 1⟩, ⟨.number value, lexeme, 1⟩] ++ [⟨.endOfInput, "", 1⟩] := by
    rw [tokens, hitems]; rfl
  have hreads : Grammar.Reads true .expression session.nextId
      [⟨.minus, "-", 1⟩, ⟨.number value, lexeme, 1⟩]
      (.unary ⟨.minus, "-", 1⟩ (.literal (.number value))) session.nextId [] :=
    .expression_of_unary (.negate (.inr rfl) (.callUnary (.primaryCall (.constant rfl))))
  have hfinal : Token.kind ⟨.endOfInput, "", 1⟩ = .endOfInput := rfl
  have hparsed := Grammar.singleExpression_of_reads (by simp) hfinal hreads
  rw [← htokens] at hparsed
  rw [Session.evaluate_of_parsed hlexical hparsed]
  rfl

end

/-! ## Numbers read back -/

section

variable {format : Number.Format} {x : Float}

/-- The text of a finite double is evaluated to the double. -/
theorem Session.evaluate_write (hformat : format.Readable) (hsigned : format.signedZero = true)
    (hfinite : x.isFinite = true) (session : Session) (fuel : Nat) :
    ∃ tree, session.evaluate (fuel + 2) (Utf8.encode (format.write x)) =
      (⟨some tree, [], some (.ok (.number x))⟩, session) := by
  obtain ⟨negative, text, num, places, hwrite, -, hwrites, rfl⟩ :=
    Number.Format.write_spec hformat hfinite (.inl hsigned)
  have hitems := hwrites.lexeme.items_eq
  rw [hwrite, Utf8.encode_ofList, Utf8.ofChars_append]
  cases negative with
  | false => exact ⟨_, Session.evaluate_number hitems (fuel + 1)⟩
  | true => exact ⟨_, Session.evaluate_minus_number hitems fuel⟩

/-- The text of a double without a sign is a number. -/
theorem Lexer.lexeme_write (hformat : format.Readable) (hfinite : x.isFinite = true)
    (hpositive : x.toBits.toNat < 2 ^ 63) :
    Lexeme (.number x) (Utf8.encode (format.write x)) := by
  obtain ⟨negative, text, num, places, hwrite, hnegative, hwrites, hx⟩ :=
    Number.Format.write_spec hformat hfinite (.inr hpositive)
  obtain rfl : negative = false := Bool.eq_false_iff.2 fun h =>
    absurd (hnegative h) (Nat.not_le.2 hpositive)
  rw [if_neg (by decide)] at hx
  rw [hwrite, Utf8.encode_ofList, hx]
  exact hwrites.lexeme

/-- A number of a source has no sign. -/
theorem Lexer.Lexeme.toBits_lt {text : List UInt8} (h : Lexeme (.number x) text)
    (hfinite : x.isFinite = true) : x.toBits.toNat < 2 ^ 63 := by
  rw [h.eq_numberValue] at hfinite ⊢
  exact Number.toBits_nearest_lt hfinite

end

/-- **Numbers read back as they are written.** Every finite double is written, as a value and in a
    tree, as an expression that each session, with steps enough for a sign and a number, evaluates to
    the same double, and that leaves the session as it was. The literal of every number of a source
    that is finite is scanned as one number, and it is the same. -/
theorem written_numbers_read_back :
    (∀ x : Float, x.isFinite = true →
      ∀ text ∈ [(Value.number x).text, (Expr.literal (.number x)).printed],
        ∀ (session : Session) (fuel : Nat), ∃ tree,
          session.evaluate (fuel + 2) (Utf8.encode text) =
            (⟨some tree, [], some (.ok (.number x))⟩, session)) ∧
    ∀ (source : List UInt8) (t : Token) (x : Float), t ∈ tokens source → t.kind = .number x →
      x.isFinite = true → items (Utf8.encode t.literal) =
        [.ok ⟨.number x, t.literal, 1⟩, .ok ⟨.endOfInput, "", 1⟩] := by
  constructor
  · intro x hfinite text htext session fuel
    rcases List.mem_pair.1 htext with rfl | rfl
    · exact Session.evaluate_write Number.readable_printed rfl hfinite session fuel
    · exact Session.evaluate_write Number.readable_inTree rfl hfinite session fuel
  · intro source t x ht hkind hfinite
    have hlexeme := Lexer.lexeme_of_mem_tokens ht (by rw [hkind]; exact nofun)
    rw [hkind] at hlexeme
    have hliteral : t.literal = Number.literal.write x := by rw [Token.literal, hkind]
    have hwritten := Lexer.lexeme_write Number.readable_literal hfinite (hlexeme.toBits_lt hfinite)
    rw [hliteral, hwritten.items_eq, Utf8.decodeLossy_of_decode? (Utf8.decode?_encode _)]

/-- The negative zero. -/
def negativeZero : Float := Float.ofBits 0x8000000000000000

/-- The first number whose literal is its shortest decimal although it is whole. -/
def largeNumber : List UInt8 := bytesOf "9223372036854775808.0"

theorem written_numbers_read_back_negativeZero :
    negativeZero.isFinite = true ∧ (Value.number negativeZero).text = "-0" ∧
      (∀ (session : Session) (fuel : Nat), ∃ tree,
        session.evaluate (fuel + 2) (Utf8.encode "-0") =
          (⟨some tree, [], some (.ok (.number negativeZero))⟩, session)) ∧
      ∃ t x, t ∈ tokens largeNumber ∧ t.kind = .number x ∧ x.isFinite = true ∧
        t.literal = "9223372036854776000" ∧
        items (Utf8.encode t.literal) =
          [.ok ⟨.number x, t.literal, 1⟩, .ok ⟨.endOfInput, "", 1⟩] := by
  have hfinite : negativeZero.isFinite = true := by decide +kernel
  have htext : (Value.number negativeZero).text = "-0" := by decide +kernel
  have heval := written_numbers_read_back.1 negativeZero hfinite _ List.mem_cons_self
  rw [htext] at heval
  have hmem : (⟨.number (Lexer.numberValue largeNumber), "9223372036854775808.0", 1⟩ : Token) ∈
      tokens largeNumber := List.mem_cons_self
  have hlarge : (Lexer.numberValue largeNumber).isFinite = true := by decide +kernel
  exact ⟨hfinite, htext, heval, _, _, hmem, rfl, hlarge, by decide +kernel,
    written_numbers_read_back.2 largeNumber _ _ hmem rfl hlarge⟩

end Lox
