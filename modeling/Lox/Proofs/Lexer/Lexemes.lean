import Lox.Proofs.Lexer.Cursor
import Lox.Proofs.Text.Utf8

set_option autoImplicit false

/-! # The lexemes of the language

What texts are tokens, and of what kind, is said here without reference to how a source is cut
(`Lexeme`). A piece of a source that is read as a token is a lexeme (`lexeme_of_ofText`), a lexeme is
read as a token of its kind (`Lexeme.ofText`), and no lexeme that begins where a piece does is longer
than the piece (`Lexeme.length_le_extent`). -/

namespace Lox

/-- The bytes of an ASCII text. -/
def bytesOf (text : String) : List UInt8 := text.toList.map Lexer.byte

namespace Lexer

/-! ## Bytes -/

theorem byte_forall {P : UInt8 → Prop} (h : ∀ n : Fin 256, P (UInt8.ofNat n)) (b : UInt8) : P b := by
  have hb := h ⟨b.toNat, UInt8.toNat_lt b⟩
  rwa [show UInt8.ofNat b.toNat = b from UInt8.ofNat_toNat] at hb

theorem ascii_of_isDigit {b : UInt8} (h : isDigit b = true) : b < 0x80 := by
  simp only [isDigit, Bool.and_eq_true, decide_eq_true_eq] at h
  exact UInt8.lt_of_le_of_lt h.2 (by decide)

theorem ascii_of_isWordPart {b : UInt8} (h : isWordPart b = true) : b < 0x80 := by
  simp only [isWordPart, isWordStart, Bool.or_eq_true, Bool.and_eq_true, decide_eq_true_eq,
    beq_iff_eq] at h
  rcases h with ((⟨-, h⟩ | ⟨-, h⟩) | rfl) | h
  · exact UInt8.lt_of_le_of_lt h (by decide)
  · exact UInt8.lt_of_le_of_lt h (by decide)
  · decide
  · exact ascii_of_isDigit h

theorem isWordPart_of_isWordStart {b : UInt8} (h : isWordStart b = true) : isWordPart b = true :=
  Bool.or_eq_true_iff.2 (.inl h)

/-- What begins a word begins nothing else. -/
theorem of_isWordStart {b : UInt8} (h : isWordStart b = true) : isDigit b = false ∧
    isContinuation b = false ∧ isBlank b = false ∧ b ≠ quote ∧ b ≠ byte '/' ∧ b ≠ byte '=' ∧
      b ≠ byte '.' :=
  byte_forall (P := fun b => isWordStart b = true → isDigit b = false ∧ isContinuation b = false ∧
    isBlank b = false ∧ b ≠ quote ∧ b ≠ byte '/' ∧ b ≠ byte '=' ∧ b ≠ byte '.')
    (by decide +kernel) b h

/-- What begins a number begins nothing else. -/
theorem of_isDigit {b : UInt8} (h : isDigit b = true) : isBlank b = false ∧ b ≠ quote := by
  constructor
  · refine Bool.eq_false_iff.2 fun hblank => ?_
    simp only [isBlank, Bool.or_eq_true, beq_iff_eq] at hblank
    obtain ((rfl | rfl) | rfl) | rfl := hblank <;> cases h
  · rintro rfl
    cases h

/-! ## How far numbers and words go -/

section

variable {b : UInt8} {bs : List UInt8}

theorem extent_of_isDigit (hdigit : isDigit b = true) : extent b bs = numberExtent bs := by
  rw [extent, if_neg (by simpa using (of_isDigit hdigit).2), if_pos hdigit]

theorem extent_of_isWordStart (hword : isWordStart b = true) :
    extent b bs = runLength isWordPart bs := by
  obtain ⟨hdigit, -, -, hquote, -⟩ := of_isWordStart hword
  rw [extent, if_neg (by simpa using hquote), if_neg (by simp [hdigit]), if_pos hword]

theorem extent_of_takesEqual (h : takesEqual b = true) :
    extent b bs = if bs.head? == some (byte '=') then 1 else 0 := by
  simp only [takesEqual, Bool.or_eq_true, beq_iff_eq] at h
  obtain ((rfl | rfl) | rfl) | rfl := h <;> rfl

theorem runLength_append {test : UInt8 → Bool} {run more : List UInt8}
    (hrun : ∀ x ∈ run, test x = true) : run.length ≤ runLength test (run ++ more) := by
  rw [runLength, List.takeWhile_append_of_pos hrun, List.length_append]
  exact Nat.le_add_right _ _

theorem runLength_le_numberExtent (bs : List UInt8) : runLength isDigit bs ≤ numberExtent bs := by
  obtain ⟨digits, after, rfl, hdigits, hafter⟩ := exists_run isDigit bs
  rw [numberExtent_run hdigits hafter, runLength_run hdigits hafter]
  exact Nat.le_add_right _ _

theorem ofText_of_isDigit (hdigit : isDigit b = true) (rest : List UInt8) :
    Reading.ofText (b :: rest) = .token (.number (numberValue (b :: rest))) := by
  obtain ⟨hblank, hquote⟩ := of_isDigit hdigit
  simp [Reading.ofText, hblank, hquote, hdigit]

theorem ofText_of_isWordStart (hword : isWordStart b = true) (rest : List UInt8) :
    Reading.ofText (b :: rest) = .token (.ofWord (Utf8.decodeLossy (b :: rest))) := by
  obtain ⟨hdigit, -, hblank, hquote, -⟩ := of_isWordStart hword
  simp [Reading.ofText, hblank, hquote, hdigit, hword]

end

/-! ## Lexemes -/

/-- The texts that are tokens, with the kinds of these: symbols, reserved words, words that are not
    reserved, digits with and without a fraction, and text between two quotes. -/
inductive Lexeme : Kind → List UInt8 → Prop where
  | symbol {text : String} {kind : Kind} : (text, kind) ∈ Kind.symbols → Lexeme kind (bytesOf text)
  | keyword {text : String} {kind : Kind} : (text, kind) ∈ Kind.keywords →
      Lexeme kind (bytesOf text)
  | name {first : UInt8} {rest : List UInt8} : isWordStart first = true →
      (∀ x ∈ rest, isWordPart x = true) →
      (∀ word ∈ Kind.keywords, bytesOf word.1 ≠ first :: rest) →
      Lexeme .identifier (first :: rest)
  | whole {digit : UInt8} {digits : List UInt8} : isDigit digit = true →
      (∀ x ∈ digits, isDigit x = true) →
      Lexeme (.number (numberValue (digit :: digits))) (digit :: digits)
  | fraction {digit decimal : UInt8} {digits decimals : List UInt8} : isDigit digit = true →
      (∀ x ∈ digits, isDigit x = true) → isDigit decimal = true →
      (∀ x ∈ decimals, isDigit x = true) →
      Lexeme (.number (numberValue (digit :: (digits ++ byte '.' :: decimal :: decimals))))
        (digit :: (digits ++ byte '.' :: decimal :: decimals))
  | string {body : List UInt8} {value : String} : quote ∉ body →
      Utf8.decode? body = some value → Lexeme (.string value) (quote :: (body ++ [quote]))

theorem decode?_of_mem_symbols :
    ∀ p ∈ Kind.symbols, Utf8.decode? (bytesOf p.1) = some p.1 := by decide +kernel

theorem decode?_of_mem_keywords :
    ∀ p ∈ Kind.keywords, Utf8.decode? (bytesOf p.1) = some p.1 := by decide +kernel

/-- A symbol is one byte, or one that takes an equals sign and this sign. -/
theorem bytesOf_of_mem_symbols : ∀ p ∈ Kind.symbols, (match bytesOf p.1 with
    | [_] => true
    | [b, sign] => takesEqual b && sign == byte '='
    | _ => false) = true := by decide +kernel

theorem word_of_mem_keywords : ∀ p ∈ Kind.keywords,
    (bytesOf p.1).head?.any isWordStart ∧ ∀ x ∈ bytesOf p.1, isWordPart x = true := by
  decide +kernel

/-! ### Pieces are lexemes -/

section

variable {b : UInt8} {bs : List UInt8} {kind : Kind}

theorem lexeme_of_string
    (h : Reading.ofString (bs.take (stringExtent bs)) = .token kind) :
    Lexeme kind (quote :: bs.take (stringExtent bs)) := by
  obtain ⟨body, after, rfl, hbody, hafter⟩ := exists_run (· != quote) bs
  have hnone : quote ∉ body := fun hmem => by simpa using hbody quote hmem
  rw [stringExtent, runLength_run hbody hafter, List.length_append] at h ⊢
  cases after with
  | nil =>
    -- the string is not closed, as no quote is at the end of its body
    rw [if_neg (by simp), List.append_nil, List.take_length, Reading.ofString, if_neg] at h
    · cases h
    · exact fun hlast => hnone (List.mem_of_getLast? (beq_iff_eq.1 hlast))
  | cons q after =>
    obtain rfl : q = quote := by simpa using hafter q rfl
    have htake : (body ++ quote :: after).take (body.length + 1) = body ++ [quote] := by
      rw [List.take_length_add_append]
      rfl
    rw [if_pos (by simp), htake] at h ⊢
    rw [Reading.ofString_closed] at h
    cases hvalue : Utf8.decode? body with
    | none => rw [hvalue] at h; cases h
    | some value =>
      rw [hvalue] at h
      cases h
      exact .string hnone hvalue

theorem lexeme_of_number (hb : isDigit b = true) :
    Lexeme (.number (numberValue (b :: bs.take (numberExtent bs))))
      (b :: bs.take (numberExtent bs)) := by
  obtain ⟨digits, after, rfl, hdigits, hafter⟩ := exists_run isDigit bs
  rw [numberExtent_run hdigits hafter]
  split
  · next hfraction =>
    obtain ⟨hpoint, hdecimal⟩ := hfraction
    match after with
    | [] => cases hpoint
    | [_] => cases hdecimal
    | point :: decimal :: rest =>
      obtain rfl : point = byte '.' := Option.some.inj hpoint
      have hdecimal : isDigit decimal = true := hdecimal
      obtain ⟨decimals, after, rfl, hdecimals, hafter⟩ := exists_run isDigit rest
      have hrun : runLength isDigit (decimal :: (decimals ++ after)) = decimals.length + 1 := by
        have hall : ∀ x ∈ decimal :: decimals, isDigit x = true :=
          List.forall_mem_cons.2 ⟨hdecimal, hdecimals⟩
        exact runLength_run hall hafter
      rw [List.tail_cons, hrun, List.take_length_add_append, Nat.add_comm 1, List.take_succ_cons,
        List.take_succ_cons, List.take_left]
      exact .fraction hb hdigits hdecimal hdecimals
  · rw [Nat.add_zero, List.take_left]
    exact .whole hb hdigits

/-- The bytes of a reserved word are those of a text exactly if the text is the word. -/
theorem bytesOf_eq_iff {word value : String} {text : List UInt8}
    (hword : Utf8.decode? (bytesOf word) = some word) (htext : Utf8.decode? text = some value) :
    bytesOf word = text ↔ word = value := by
  refine ⟨fun heq => Option.some.inj ?_, fun heq => ?_⟩
  · rw [← hword, heq, htext]
  · rw [← Utf8.encode_of_decode? hword, heq, Utf8.encode_of_decode? htext]

/-- A word is reserved if it is written as one of the reserved words, and a name otherwise. -/
theorem ofWord_of_word {rest : List UInt8} (hb : isWordStart b = true)
    (hrest : ∀ x ∈ rest, isWordPart x = true) :
    (∃ word ∈ Kind.keywords, bytesOf word.1 = b :: rest ∧
        Kind.ofWord (Utf8.decodeLossy (b :: rest)) = word.2) ∨
      (∀ word ∈ Kind.keywords, bytesOf word.1 ≠ b :: rest) ∧
        Kind.ofWord (Utf8.decodeLossy (b :: rest)) = .identifier := by
  have hascii : ∀ x ∈ b :: rest, x < 0x80 := List.forall_mem_cons.2
    ⟨ascii_of_isWordPart (isWordPart_of_isWordStart hb), fun x hx => ascii_of_isWordPart (hrest x hx)⟩
  have htext := Utf8.decode?_ascii hascii
  rw [Utf8.decodeLossy_of_decode? htext]
  generalize String.ofList ((b :: rest).map fun b => Char.ofNat b.toNat) = text at htext
  unfold Kind.ofWord
  cases hlookup : Kind.keywords.lookup text with
  | none =>
    refine .inr ⟨fun word hword heq => ?_, rfl⟩
    have hne := List.lookup_eq_none_iff.1 hlookup word hword
    rw [(bytesOf_eq_iff (decode?_of_mem_keywords word hword) htext).1 heq] at hne
    simp at hne
  | some kind =>
    have hmem := mem_of_lookup hlookup
    exact .inl ⟨_, hmem, (bytesOf_eq_iff (decode?_of_mem_keywords _ hmem) htext).2 rfl, rfl⟩

theorem lexeme_of_word {rest : List UInt8} (hb : isWordStart b = true)
    (hrest : ∀ x ∈ rest, isWordPart x = true) :
    Lexeme (.ofWord (Utf8.decodeLossy (b :: rest))) (b :: rest) := by
  rcases ofWord_of_word hb hrest with ⟨word, hmem, htext, hkind⟩ | ⟨hnone, hkind⟩
  · rw [hkind, ← htext]
    exact .keyword hmem
  · rw [hkind]
    exact .name hb hrest hnone

/-- No symbol has a replacement character in it. -/
theorem not_replaced_of_mem_symbols : ∀ p ∈ Kind.symbols, '\uFFFD' ∉ p.1.toList := by
  simp [Kind.symbols]

/-- A piece that is a token is a lexeme. -/
theorem lexeme_of_ofText (h : Reading.ofText (b :: bs.take (extent b bs)) = .token kind) :
    Lexeme kind (b :: bs.take (extent b bs)) := by
  obtain ⟨rfl, h⟩ | ⟨hdigit, rfl⟩ | ⟨hword, rfl⟩ | hmem := Reading.of_ofText h
  · exact lexeme_of_string h
  · rw [extent_of_isDigit hdigit]
    exact lexeme_of_number hdigit
  · rw [extent_of_isWordStart hword]
    exact lexeme_of_word hword fun x hx => of_mem_run hx
  · have htext := Utf8.decode?_of_decodeLossy (not_replaced_of_mem_symbols _ hmem)
    rw [← Utf8.encode_of_decode? htext, Utf8.encode_of_decode? (decode?_of_mem_symbols _ hmem)]
    exact .symbol hmem

end

/-! ### Lexemes are read as tokens -/

namespace Lexeme

variable {kind kind' : Kind} {text : List UInt8}

theorem ofText (h : Lexeme kind text) : Reading.ofText text = .token kind := by
  cases h with
  | symbol hmem =>
    have hall : ∀ p ∈ Kind.symbols, Reading.ofText (bytesOf p.1) = .token p.2 := by
      simp only [Kind.symbols, List.forall_mem_cons]
      refine ⟨?_, ?_, ?_, ?_, ?_, ?_, ?_, ?_, ?_, ?_, ?_, ?_, ?_, ?_, ?_, ?_, ?_, ?_, ?_, nofun⟩ <;> rfl
    exact hall _ hmem
  | keyword hmem =>
    have hall : ∀ p ∈ Kind.keywords, Reading.ofText (bytesOf p.1) = .token p.2 := by
      simp only [Kind.keywords, List.forall_mem_cons]
      refine ⟨?_, ?_, ?_, ?_, ?_, ?_, ?_, ?_, ?_, ?_, ?_, ?_, ?_, ?_, ?_, ?_, ?_, nofun⟩ <;> rfl
    exact hall _ hmem
  | name hfirst hrest hnone =>
    rw [ofText_of_isWordStart hfirst]
    rcases ofWord_of_word hfirst hrest with ⟨word, hmem, htext, -⟩ | ⟨-, hkind⟩
    · exact absurd htext (hnone word hmem)
    · rw [hkind]
  | whole hdigit _ | fraction hdigit _ _ _ => exact ofText_of_isDigit hdigit _
  | @string body value hbody hvalue =>
    show Reading.ofString (body ++ [quote]) = _
    rw [Reading.ofString_closed, hvalue]

/-- The kind of a lexeme is told by its text. -/
theorem unique (h : Lexeme kind text) (h' : Lexeme kind' text) : kind = kind' := by
  have hsame := h.ofText.symm.trans h'.ofText
  cases hsame
  rfl

/-- No lexeme is longer than the piece that is cut where it begins. -/
theorem length_le_extent {first : UInt8} {rest : List UInt8} (h : Lexeme kind (first :: rest))
    (more : List UInt8) : rest.length ≤ extent first (rest ++ more) := by
  generalize htext : first :: rest = text at h
  cases h with
  | symbol hmem =>
    have hform := bytesOf_of_mem_symbols _ hmem
    rw [← htext] at hform
    match rest, hform with
    | [], _ => exact Nat.zero_le _
    | [sign], hform =>
      rw [Bool.and_eq_true, beq_iff_eq] at hform
      obtain ⟨htakes, rfl⟩ := hform
      rw [extent_of_takesEqual htakes]
      exact Nat.le_refl 1
  | keyword hmem =>
    obtain ⟨hfirst, hall⟩ := word_of_mem_keywords _ hmem
    rw [← htext] at hfirst hall
    rw [extent_of_isWordStart hfirst]
    exact runLength_append fun x hx => hall x (List.mem_cons_of_mem _ hx)
  | name hfirst hrest _ =>
    cases htext
    rw [extent_of_isWordStart hfirst]
    exact runLength_append hrest
  | whole hdigit hdigits =>
    cases htext
    rw [extent_of_isDigit hdigit]
    exact Nat.le_trans (runLength_append hdigits) (runLength_le_numberExtent _)
  | @fraction _ decimal digits decimals hdigit hdigits hdecimal hdecimals =>
    cases htext
    have hrun : decimals.length + 1 ≤ runLength isDigit (decimal :: decimals ++ more) :=
      runLength_append (List.forall_mem_cons.2 ⟨hdecimal, hdecimals⟩)
    have hpoint : ∀ x ∈ (byte '.' :: (decimal :: decimals ++ more)).head?, isDigit x = false := by
      rintro _ ⟨⟩
      rfl
    rw [extent_of_isDigit hdigit, List.append_assoc, List.cons_append,
      numberExtent_run hdigits hpoint, if_pos ⟨rfl, hdecimal⟩, List.tail_cons, List.length_append,
      List.length_cons, List.length_cons]
    omega
  | @string body _ hbody _ =>
    cases htext
    have hrun : ∀ x ∈ body, (x != quote) = true := fun x hx => by
      rw [bne_iff_ne]
      rintro rfl
      exact hbody hx
    have hquote : ∀ x ∈ (quote :: more).head?, (x != quote) = false := by
      rintro _ ⟨⟩
      rfl
    show _ ≤ stringExtent _
    rw [List.append_assoc, List.singleton_append, stringExtent, runLength_run hrun hquote,
      if_pos (by simp), List.length_append]
    exact Nat.le_refl _

end Lexeme

end Lexer

end Lox
