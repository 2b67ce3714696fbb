import Lox.Proofs.Lexer.Lexemes

set_option autoImplicit false

/-! # Scanning loses and invents nothing

The pieces of a source are laid out as spans, one behind the other from the first byte to the last
(`Tiles`). Each span is a blank, a comment or one item, and an item says of its span what is there
(`Span.Faithful`): the lexeme of a token is the text of the span, and the line is the one on which
the span ends. -/

namespace Lox.Lexer

/-! ## Spans -/

/-- A part of a source, and the item that was made of it unless it is skipped. -/
structure Span where
  first : Nat
  /-- The place behind the last byte. -/
  last : Nat
  item? : Option Item

/-- The spans of pieces that follow each other from a place and a line on. -/
def spansFrom (first line : Nat) : List Piece → List Span
  | [] => []
  | p :: ps =>
    let last := first + p.text.length
    let line := line + p.text.count newline
    ⟨first, last, p.item? line⟩ :: spansFrom last line ps

/-- The spans of a source. -/
def spans (source : List UInt8) : List Span := spansFrom 0 1 (pieces source)

/-- Spans that follow each other from one place to another, none of them empty. -/
inductive Tiles : Nat → List Span → Nat → Prop where
  | done {place : Nat} : Tiles place [] place
  | next {first last place : Nat} {item? : Option Item} {rest : List Span} : first < last →
      Tiles last rest place → Tiles first (⟨first, last, item?⟩ :: rest) place

/-- The line of the byte in front of a place, counted from 1. -/
def lineAt (source : List UInt8) (place : Nat) : Nat := 1 + (source.take place).count newline

namespace Span

variable (source : List UInt8) (s : Span)

/-- The bytes of a span. -/
def text : List UInt8 := (source.take s.last).drop s.first

/-- A token says what is in its span. -/
structure IsToken (t : Token) : Prop where
  lexeme : Utf8.encode t.lexeme = s.text source
  line : t.line = lineAt source s.last
  inside : t.kind ≠ .endOfInput
  /-- The value of a string is its lexeme without the quotes. -/
  payload : ∀ value, t.kind = .string value → t.lexeme = "\"" ++ value ++ "\""

/-- Two slashes and what follows them, up to a newline or the end of the source. -/
structure IsComment : Prop where
  slashes : [byte '/', byte '/'] <+: s.text source
  inside : newline ∉ s.text source
  behind : source[s.last]? = none ∨ source[s.last]? = some newline

/-- What a span is. -/
def Faithful : Prop :=
  match s.item? with
  | some (.ok t) => s.IsToken source t
  | some (.error e) => ∃ problem, e = .lexical (lineAt source s.last) problem
  | none => (∃ b, isBlank b = true ∧ s.text source = [b]) ∨ s.IsComment source

end Span

/-! ## Tokens -/

/-- The text of a token is well-formed, and with its quotes off it is the value of a string. -/
structure Reads (kind : Kind) (text : List UInt8) : Prop where
  wellFormed : ∃ lexeme, Utf8.decode? text = some lexeme
  inside : kind ≠ .endOfInput
  payload : ∀ value, kind = .string value → Utf8.decodeLossy text = "\"" ++ value ++ "\""

theorem reads_of_ascii {kind : Kind} {text : List UInt8} (h : ∀ x ∈ text, x < 0x80)
    (hinside : kind ≠ .endOfInput) (hstring : ∀ value, kind ≠ .string value) : Reads kind text :=
  ⟨⟨_, Utf8.decode?_ascii h⟩, hinside, fun value hvalue => absurd hvalue (hstring value)⟩

theorem of_mem_symbols : ∀ p ∈ Kind.symbols, p.2 ≠ .endOfInput ∧ ∀ value, p.2 ≠ .string value := by
  simp [Kind.symbols]

theorem of_mem_keywords : ∀ p ∈ Kind.keywords, p.2 ≠ .endOfInput ∧ ∀ value, p.2 ≠ .string value := by
  simp [Kind.keywords]

theorem Lexeme.reads {kind : Kind} {text : List UInt8} (h : Lexeme kind text) : Reads kind text := by
  cases h with
  | symbol hmem =>
    have htext := decode?_of_mem_symbols _ hmem
    obtain ⟨hinside, hstring⟩ := of_mem_symbols _ hmem
    exact ⟨⟨_, htext⟩, hinside, fun value h => absurd h (hstring value)⟩
  | keyword hmem =>
    have htext := decode?_of_mem_keywords _ hmem
    obtain ⟨hinside, hstring⟩ := of_mem_keywords _ hmem
    exact ⟨⟨_, htext⟩, hinside, fun value h => absurd h (hstring value)⟩
  | name hfirst hrest _ =>
    refine reads_of_ascii (List.forall_mem_cons.2 ⟨?_, fun x hx => ?_⟩) nofun nofun
    · exact ascii_of_isWordPart (isWordPart_of_isWordStart hfirst)
    · exact ascii_of_isWordPart (hrest x hx)
  | whole hdigit hdigits =>
    refine reads_of_ascii (List.forall_mem_cons.2 ⟨?_, fun x hx => ?_⟩) nofun nofun
    · exact ascii_of_isDigit hdigit
    · exact ascii_of_isDigit (hdigits x hx)
  | fraction hdigit hdigits hdecimal hdecimals =>
    refine reads_of_ascii (List.forall_mem_cons.2 ⟨?_, List.forall_mem_append.2 ⟨fun x hx => ?_,
      List.forall_mem_cons.2 ⟨by decide, List.forall_mem_cons.2 ⟨?_, fun x hx => ?_⟩⟩⟩⟩) nofun nofun
    · exact ascii_of_isDigit hdigit
    · exact ascii_of_isDigit (hdigits x hx)
    · exact ascii_of_isDigit hdecimal
    · exact ascii_of_isDigit (hdecimals x hx)
  | @string body value _ hvalue =>
    have hquote : Utf8.decode? [quote] = some "\"" := by decide
    have htext : Utf8.decode? (quote :: (body ++ [quote])) = some ("\"" ++ value ++ "\"") :=
      Utf8.decode?_append (Utf8.decode?_append hquote hvalue) hquote
    refine ⟨⟨_, htext⟩, nofun, fun value hvalue => ?_⟩
    cases hvalue
    exact Utf8.decodeLossy_of_decode? htext

/-! ## What is skipped -/

theorem ofString_ne (rest : List UInt8) :
    Reading.ofString rest ≠ .blank ∧ Reading.ofString rest ≠ .comment := by
  unfold Reading.ofString
  split
  · split <;> simp
  · simp

/-- Only blanks and comments are skipped. -/
theorem skipped_ofText {b : UInt8} {rest : List UInt8}
    (h : Reading.ofText (b :: rest) = .blank ∨ Reading.ofText (b :: rest) = .comment) :
    isBlank b = true ∨ b = byte '/' ∧ rest.head? = some (byte '/') := by
  rw [Reading.ofText] at h
  by_cases hblank : isBlank b = true
  · exact .inl hblank
  by_cases hquote : (b == quote) = true
  · simp [hblank, hquote, ofString_ne] at h
  by_cases hdigit : isDigit b = true
  · simp [hblank, hquote, hdigit] at h
  by_cases hword : isWordStart b = true
  · simp [hblank, hquote, hdigit, hword] at h
  by_cases hslashes : (b == byte '/' && rest.head? == some (byte '/')) = true
  · rw [Bool.and_eq_true, beq_iff_eq, beq_iff_eq] at hslashes
    exact .inr hslashes
  · simp only [if_neg hblank, if_neg hquote, if_neg hdigit, if_neg hword, if_neg hslashes] at h
    split at h <;> simp at h

/-! ## All spans -/

section

variable {source : List UInt8}

theorem lineAt_add (first n : Nat) :
    lineAt source (first + n) = lineAt source first + ((source.drop first).take n).count newline := by
  rw [lineAt, lineAt, List.take_add, List.count_append, Nat.add_assoc]

theorem drop_span {b : UInt8} {bs : List UInt8} {first : Nat} (h : source.drop first = b :: bs) :
    source.drop (first + (extent b bs + 1)) = bs.drop (extent b bs) := by
  rw [← List.drop_drop, h, List.drop_succ_cons]

theorem text_span {b : UInt8} {bs : List UInt8} {first : Nat} (item? : Option Item)
    (h : source.drop first = b :: bs) :
    Span.text source ⟨first, first + (extent b bs + 1), item?⟩ = b :: bs.take (extent b bs) := by
  rw [Span.text, List.drop_take, h, Nat.add_sub_cancel_left, List.take_succ_cons]

/-- A piece that is skipped is a blank or a comment. -/
theorem skipped {b : UInt8} {bs : List UInt8} {first : Nat} {item? : Option Item}
    (h : source.drop first = b :: bs)
    (hreading : Reading.ofText (b :: bs.take (extent b bs)) = .blank ∨
      Reading.ofText (b :: bs.take (extent b bs)) = .comment) :
    (∃ b', isBlank b' = true ∧
      Span.text source ⟨first, first + (extent b bs + 1), item?⟩ = [b']) ∨
    Span.IsComment source ⟨first, first + (extent b bs + 1), item?⟩ := by
  have htext := text_span item? h
  rcases skipped_ofText hreading with hblank | ⟨rfl, hhead⟩
  · refine .inl ⟨b, hblank, ?_⟩
    rw [htext, extent_of_isBlank hblank, List.take_zero]
  · have hslash : bs.head? = some (byte '/') := by
      rw [List.head?_take] at hhead
      split at hhead
      · cases hhead
      · exact hhead
    refine .inr ⟨?_, ?_, ?_⟩
    · obtain ⟨rest, hrest⟩ := List.head?_eq_some_iff.1 hhead
      rw [htext, hrest]
      exact ⟨rest, rfl⟩
    · rw [htext, List.mem_cons, not_or]
      exact ⟨by decide, newline_not_mem_extent (by decide) bs⟩
    · show source[first + (extent (byte '/') bs + 1)]? = none ∨
        source[first + (extent (byte '/') bs + 1)]? = some newline
      rw [← List.head?_drop, drop_span h, extent_of_slashes hslash]
      obtain ⟨run, after, rfl, hrun, hafter⟩ := exists_run (· != newline) bs
      rw [runLength_run hrun hafter, List.drop_left]
      cases after with
      | nil => exact .inl rfl
      | cons x after => exact .inr (by simpa using hafter x rfl)

/-- A span is the piece that is cut at its first byte. -/
def Span.IsPiece (source : List UInt8) (s : Span) : Prop :=
  ∃ b bs, source.drop s.first = b :: bs ∧ s.last = s.first + (extent b bs + 1) ∧
    s.item? = Piece.item? (lineAt source s.last)
      ⟨b :: bs.take (extent b bs), .ofText (b :: bs.take (extent b bs))⟩

theorem Span.IsPiece.faithful {s : Span} (h : s.IsPiece source) : s.Faithful source := by
  obtain ⟨first, last, item?⟩ := s
  obtain ⟨b, bs, h, hlast, hitem⟩ := h
  dsimp only at h hlast hitem
  subst hlast hitem
  unfold Span.Faithful Piece.item?
  cases hreading : Reading.ofText (b :: bs.take (extent b bs)) with
  | blank => exact skipped h (.inl hreading)
  | comment => exact skipped h (.inr hreading)
  | token kind =>
    obtain ⟨⟨lexeme, hlexeme⟩, hinside, hpayload⟩ := (lexeme_of_ofText hreading).reads
    refine ⟨?_, rfl, hinside, hpayload⟩
    rw [text_span _ h, Utf8.decodeLossy_of_decode? hlexeme]
    exact Utf8.encode_of_decode? hlexeme
  | problem problem => exact ⟨problem, rfl⟩

/-- What holds of the spans of the rest of a source. -/
theorem spansFrom_spec (source : List UInt8) (bs : List UInt8) (first : Nat)
    (h : source.drop first = bs) (hle : first ≤ source.length) :
    Tiles first (spansFrom first (lineAt source first) (pieces bs)) source.length ∧
      (∀ s ∈ spansFrom first (lineAt source first) (pieces bs), s.IsPiece source) ∧
      itemsFrom (lineAt source first) (pieces bs) =
        (spansFrom first (lineAt source first) (pieces bs)).filterMap Span.item? ++
          [.ok ⟨.endOfInput, "", lineAt source source.length⟩] := by
  cases bs with
  | nil =>
    obtain rfl : first = source.length := Nat.le_antisymm hle (List.drop_eq_nil_iff.1 h)
    refine ⟨.done, ?_, rfl⟩
    intro s hs
    cases hs
  | cons b bs =>
    have hextent := extent_le b bs
    have hlength : (b :: bs.take (extent b bs)).length = extent b bs + 1 := by
      rw [List.length_cons, List.length_take, Nat.min_eq_left hextent]
    have hline : lineAt source first + (b :: bs.take (extent b bs)).count newline =
        lineAt source (first + (extent b bs + 1)) := by
      rw [lineAt_add, h, List.take_succ_cons]
    have hlast : first + (extent b bs + 1) ≤ source.length := by
      have := congrArg List.length h
      simp only [List.length_drop, List.length_cons] at this
      omega
    obtain ⟨htiles, hpieces, hitems⟩ := spansFrom_spec source _ _ (drop_span h) hlast
    rw [pieces_cons, spansFrom, itemsFrom]
    simp only [hlength, hline]
    refine ⟨.next (Nat.lt_add_of_pos_right (Nat.succ_pos _)) htiles, ?_, ?_⟩
    · intro s hs
      rcases List.mem_cons.1 hs with rfl | hs
      · exact ⟨b, bs, h, rfl, rfl⟩
      · exact hpieces s hs
    · rw [hitems, List.filterMap_cons]
      cases Piece.item? _ _ <;> rfl
termination_by source.length - first
decreasing_by omega

end

theorem isPiece_of_mem_spans {source : List UInt8} {s : Span} (h : s ∈ spans source) :
    s.IsPiece source :=
  (spansFrom_spec source source 0 rfl (Nat.zero_le _)).2.1 s h

/-- What holds of the spans of a source. -/
theorem spans_spec (source : List UInt8) :
    Tiles 0 (spans source) source.length ∧ (∀ s ∈ spans source, s.Faithful source) ∧
      items source = (spans source).filterMap Span.item? ++
        [.ok ⟨.endOfInput, "", 1 + source.count newline⟩] := by
  obtain ⟨htiles, hpieces, hitems⟩ := spansFrom_spec source source 0 rfl (Nat.zero_le _)
  have hend : lineAt source source.length = 1 + source.count newline := by
    rw [lineAt, List.take_length]
  rw [hend] at hitems
  exact ⟨htiles, fun s hs => (hpieces s hs).faithful, hitems⟩

theorem tokens_eq_filterMap (source : List UInt8) :
    tokens source = (items source).filterMap Except.toOption := by
  unfold tokens
  congr 1
  funext item
  cases item <;> rfl

/-- The tokens of a source are what is in it and, behind that, its end. -/
theorem exists_tokens_eq (source : List UInt8) : ∃ body,
    tokens source = body ++ [⟨.endOfInput, "", 1 + source.count newline⟩] ∧
      ∀ t ∈ body, t.kind ≠ .endOfInput := by
  obtain ⟨-, hfaithful, hitems⟩ := spans_spec source
  refine ⟨((spans source).filterMap Span.item?).filterMap Except.toOption, ?_, fun t ht => ?_⟩
  · rw [tokens_eq_filterMap, hitems, List.filterMap_append]
    rfl
  · obtain ⟨item, hitem, ht⟩ := List.mem_filterMap.1 ht
    obtain ⟨s, hs, hitem⟩ := List.mem_filterMap.1 hitem
    cases item with
    | error e => cases ht
    | ok t' =>
      cases ht
      have hfaithful := hfaithful s hs
      rw [Span.Faithful, hitem] at hfaithful
      exact hfaithful.inside

/-- **Scanning loses and invents nothing.** The spans of a source follow each other from its first to
    its last byte, each of them a blank, a comment or what its item says. Asked again and again, the
    scanner gives the items of the spans in order, then the end of the input, and nothing from then
    on. -/
theorem scanning_partitions (source : List UInt8) :
    Tiles 0 (spans source) source.length ∧ (∀ s ∈ spans source, s.Faithful source) ∧
      items source = (spans source).filterMap Span.item? ++
        [.ok ⟨.endOfInput, "", 1 + source.count newline⟩] ∧
      ∀ n, Scanner.start.outputs? source n =
        some ((List.range n).map fun i => (items source)[i]?) := by
  obtain ⟨htiles, hfaithful, hitems⟩ := spans_spec source
  exact ⟨htiles, hfaithful, hitems, fun n => Scanner.start.outputs?_eq source n⟩

/-- A string over two lines with a byte in it that is no text, and a name behind it. -/
theorem scanning_partitions_unreadable : ∃ s ∈ spans [0x22, 0x0A, 0xFF, 0x22, 0x78],
    s.first = 4 ∧ ∃ t, s.IsToken [0x22, 0x0A, 0xFF, 0x22, 0x78] t ∧ t.line = 2 := by
  obtain ⟨-, hfaithful, -, -⟩ := scanning_partitions [0x22, 0x0A, 0xFF, 0x22, 0x78]
  have hmem : ⟨4, 5, some (.ok ⟨.identifier, "x", 2⟩)⟩ ∈ spans [0x22, 0x0A, 0xFF, 0x22, 0x78] :=
    List.mem_cons_of_mem _ List.mem_cons_self
  exact ⟨_, hmem, rfl, _, hfaithful _ hmem, rfl⟩

end Lox.Lexer
