import Lox.Proofs.Lexer.Seam

set_option autoImplicit false

/-! # The longest lexemes

A token is the longest lexeme that the source has where the token begins (`Span.Longest`). As the
end of a lexeme is decided by what the lexeme is and not by the room behind it, lexemes written with
one space between neighbours are read as they were (`pieces_joined`), also those that stood in their
source without anything between them. -/

namespace Lox

/-- What a token is and how it is written, on whatever line it ends. -/
def Token.word (t : Token) : Kind × String := (t.kind, t.lexeme)

namespace Lexer

/-! ## Lexemes by their kind -/

namespace Lexeme

variable {kind : Kind} {text : List UInt8}

theorem eq_cons (h : Lexeme kind text) : ∃ first rest, text = first :: rest := by
  cases text with
  | nil => exact nomatch h.ofText
  | cons first rest => exact ⟨first, rest, rfl⟩

theorem name_ne_of_mem : ∀ p ∈ Kind.symbols, ∀ word ∈ Kind.keywords, p.2.name ≠ word.2.name := by
  decide +kernel

theorem eq_of_name_eq : ∀ word ∈ Kind.keywords, ∀ word' ∈ Kind.keywords,
    word.2.name = word'.2.name → word.1 = word'.1 := by
  decide +kernel

/-- Each reserved word has a kind of its own. -/
theorem eq_bytesOf (h : Lexeme kind text) {word : String} (hmem : (word, kind) ∈ Kind.keywords) :
    text = bytesOf word := by
  cases h with
  | symbol hmem' => exact absurd rfl (name_ne_of_mem (_, kind) hmem' (word, kind) hmem)
  | keyword hmem' => exact congrArg bytesOf (eq_of_name_eq (_, kind) hmem' (word, kind) hmem rfl)
  | name _ _ _ | whole _ _ | fraction _ _ _ _ | string _ _ => simp [Kind.keywords] at hmem

/-- A point in a number has a digit behind it. -/
theorem digit_behind_point {value : Float} (h : Lexeme (.number value) text) {i : Nat}
    (hpoint : text[i]? = some (byte '.')) : text[i + 1]?.any isDigit = true := by
  have hnone : ∀ l : List UInt8, (∀ x ∈ l, isDigit x = true) → ∀ i : Nat, l[i]? ≠ some (byte '.') :=
    fun l hl i hi => absurd (hl _ (List.mem_of_getElem? hi)) (by decide)
  generalize hkind : Kind.number value = kind at h
  cases h with
  | symbol hmem => subst hkind; simp [Kind.symbols] at hmem
  | keyword hmem => subst hkind; simp [Kind.keywords] at hmem
  | name _ _ _ | string _ _ => cases hkind
  | whole hdigit hdigits => exact absurd hpoint (hnone _ (List.forall_mem_cons.2 ⟨hdigit, hdigits⟩) i)
  | @fraction digit decimal digits decimals hdigit hdigits hdecimal hdecimals =>
    rw [← List.cons_append] at hpoint ⊢
    rcases Nat.lt_trichotomy i (digit :: digits).length with hlt | rfl | hgt
    · rw [List.getElem?_append_left hlt] at hpoint
      exact absurd hpoint (hnone _ (List.forall_mem_cons.2 ⟨hdigit, hdigits⟩) i)
    · rw [List.getElem?_append_right (Nat.le_succ _), Nat.succ_sub (Nat.le_refl _), Nat.sub_self]
      exact hdecimal
    · obtain ⟨k, rfl⟩ := Nat.exists_eq_add_of_lt hgt
      rw [List.getElem?_append_right (by omega), Nat.add_assoc, Nat.add_sub_cancel_left] at hpoint
      exact absurd hpoint (hnone _ (List.forall_mem_cons.2 ⟨hdecimal, hdecimals⟩) k)

end Lexeme

/-! ## Tokens where they stand -/

/-- The token of a span, if it has one. -/
def Span.token? (s : Span) : Option Token := s.item?.bind Except.toOption

/-- A token is the longest lexeme where its span begins. -/
structure Span.Longest (source : List UInt8) (s : Span) (t : Token) : Prop where
  text : Utf8.encode t.lexeme = s.text source
  isLexeme : Lexeme t.kind (s.text source)
  longest : ∀ kind text, text <+: source.drop s.first → Lexeme kind text →
    text.length ≤ (s.text source).length
  /-- No lexeme with the same text is of another kind. -/
  only : ∀ kind, Lexeme kind (s.text source) → kind = t.kind
  /-- A word is reserved if all of it, as far as it goes, is a reserved word. -/
  reserved : ∀ word ∈ Kind.keywords,
    t.kind = word.2 ↔ (source.drop s.first).takeWhile isWordPart = bytesOf word.1
  point : ∀ value, t.kind = .number value → ∀ i : Nat, (s.text source)[i]? = some (byte '.') →
    (s.text source)[i + 1]?.any isDigit = true

section

variable {source : List UInt8} {b : UInt8} {bs : List UInt8}

/-- The token of a piece is a lexeme. -/
theorem Span.IsPiece.lexeme {s : Span} {t : Token} (h : s.IsPiece source)
    (ht : s.token? = some t) : ∃ b bs, source.drop s.first = b :: bs ∧
      s.text source = b :: bs.take (extent b bs) ∧ Lexeme t.kind (b :: bs.take (extent b bs)) := by
  obtain ⟨first, last, item?⟩ := s
  obtain ⟨b, bs, hdrop, hlast, hitem⟩ := h
  dsimp only at hdrop hlast hitem ht
  subst hlast
  refine ⟨b, bs, hdrop, text_span item? hdrop, ?_⟩
  rw [Span.token?, hitem, Piece.item?] at ht
  dsimp only at ht
  split at ht
  · next kind hreading =>
    cases ht
    exact lexeme_of_ofText hreading
  · cases ht
  · cases ht

/-- What begins as a source does and is a lexeme is not longer than the first piece of the source. -/
theorem length_le_of_isPrefix {kind : Kind} {text : List UInt8} (htext : text <+: b :: bs)
    (h : Lexeme kind text) : text.length ≤ (b :: bs.take (extent b bs)).length := by
  obtain ⟨first, rest, rfl⟩ := h.eq_cons
  obtain ⟨more, hmore⟩ := htext
  cases hmore
  rw [List.length_cons, List.length_cons, List.length_take]
  exact Nat.succ_le_succ (Nat.le_min.2 ⟨h.length_le_extent more,
    Nat.le_trans (h.length_le_extent more) (extent_le _ _)⟩)

theorem takeWhile_isWordPart (hb : isWordStart b = true) :
    (b :: bs).takeWhile isWordPart = b :: bs.take (extent b bs) := by
  rw [extent_of_isWordStart hb, take_runLength,
    List.takeWhile_cons_of_pos (isWordPart_of_isWordStart hb)]

/-- A piece is a reserved word exactly if the word of which it is the beginning is. -/
theorem reserved_iff {kind : Kind} (h : Lexeme kind (b :: bs.take (extent b bs)))
    {word : String × Kind} (hword : word ∈ Kind.keywords) :
    kind = word.2 ↔ (b :: bs).takeWhile isWordPart = bytesOf word.1 := by
  obtain ⟨hstart, -⟩ := word_of_mem_keywords _ hword
  constructor
  · rintro rfl
    have hbytes := h.eq_bytesOf hword
    rw [← hbytes] at hstart
    rw [takeWhile_isWordPart hstart, hbytes]
  · intro hrun
    have hb : isWordStart b = true := by
      cases hpart : isWordPart b with
      | true =>
        rw [← hrun, List.takeWhile_cons_of_pos hpart] at hstart
        exact hstart
      | false =>
        rw [← hrun, List.takeWhile_cons_of_neg (by simp [hpart])] at hstart
        cases hstart
    rw [takeWhile_isWordPart hb] at hrun
    rw [hrun] at h
    exact h.unique (.keyword hword)

theorem longest_of_mem_spans {s : Span} {t : Token} (hs : s ∈ spans source)
    (ht : s.token? = some t) : s.Longest source t := by
  have hfaithful := (isPiece_of_mem_spans hs).faithful
  obtain ⟨item, hitem, hok⟩ := Option.bind_eq_some_iff.1 ht
  obtain ⟨b, bs, hdrop, htext, hlexeme⟩ := (isPiece_of_mem_spans hs).lexeme ht
  refine ⟨?_, ?_, ?_, ?_, ?_, ?_⟩
  · rw [Span.Faithful, hitem] at hfaithful
    cases item with
    | error e => cases hok
    | ok t' =>
      cases hok
      exact hfaithful.lexeme
  · rw [htext]
    exact hlexeme
  · rw [hdrop, htext]
    exact fun kind text hfront hkind => length_le_of_isPrefix hfront hkind
  · rw [htext]
    exact fun kind hkind => hkind.unique hlexeme
  · rw [hdrop]
    exact fun word hword => reserved_iff hlexeme hword
  · intro value hvalue i hpoint
    rw [htext] at hpoint ⊢
    rw [hvalue] at hlexeme
    exact hlexeme.digit_behind_point hpoint

end

/-! ## Lexemes read back -/

/-- The lexemes of tokens, with one space between neighbours. -/
def joined : List Token → List UInt8
  | [] => []
  | [t] => Utf8.encode t.lexeme
  | t :: t' :: ts => Utf8.encode t.lexeme ++ byte ' ' :: joined (t' :: ts)

namespace Lexeme

variable {kind : Kind} {text : List UInt8}

/-- A lexeme is one piece, and so it is with a space behind it. -/
theorem extent_eq {first : UInt8} {rest : List UInt8} (h : Lexeme kind (first :: rest)) :
    extent first rest = rest.length := by
  refine Nat.le_antisymm (extent_le _ _) ?_
  have hle := h.length_le_extent []
  rwa [List.append_nil] at hle

theorem extent_append_space {first : UInt8} {rest : List UInt8} (h : Lexeme kind (first :: rest))
    (more : List UInt8) : extent first (rest ++ byte ' ' :: more) = rest.length := by
  rw [extent_append_blank (by decide) ?_ ?_, h.extent_eq]
  · rintro rfl
    refine closed_of_reading ?_
    rw [h.extent_eq, List.take_length, h.ofText]
    exact nofun
  · rintro rfl hslash
    obtain ⟨rest', rfl⟩ := List.head?_eq_some_iff.1 hslash
    exact nomatch h.ofText

theorem pieces_eq (h : Lexeme kind text) : pieces text = [⟨text, .token kind⟩] := by
  obtain ⟨first, rest, rfl⟩ := h.eq_cons
  rw [pieces_cons, h.extent_eq, List.take_length, List.drop_length, h.ofText]
  rfl

theorem pieces_append_space (h : Lexeme kind text) (more : List UInt8) :
    pieces (text ++ byte ' ' :: more) =
      ⟨text, .token kind⟩ :: ⟨[byte ' '], .blank⟩ :: pieces more := by
  obtain ⟨first, rest, rfl⟩ := h.eq_cons
  rw [List.cons_append, pieces_append (h.extent_append_space more), h.ofText, pieces_cons,
    extent_of_isBlank (by decide)]
  rfl

end Lexeme

/-- The pieces of joined lexemes: each lexeme but the last, and a space behind it. -/
theorem pieces_joined {ts : List Token} (hts : ∀ t ∈ ts, Lexeme t.kind (Utf8.encode t.lexeme))
    (last : Token) : pieces (joined (ts ++ [last])) =
      ts.flatMap (fun t => [⟨Utf8.encode t.lexeme, .token t.kind⟩, ⟨[byte ' '], .blank⟩]) ++
        pieces (Utf8.encode last.lexeme) := by
  induction ts with
  | nil => rfl
  | cons t ts ih =>
    obtain ⟨ht, hts⟩ := List.forall_mem_cons.1 hts
    have hjoined : joined (t :: (ts ++ [last])) =
        Utf8.encode t.lexeme ++ byte ' ' :: joined (ts ++ [last]) := by
      cases ts <;> rfl
    rw [List.cons_append, hjoined, ht.pieces_append_space, ih hts]
    rfl

/-! ### Words of a source -/

/-- The word of a piece, if it is a token. -/
def Piece.word? (p : Piece) : Option (Kind × String) :=
  match p.reading with
  | .token kind => some (kind, Utf8.decodeLossy p.text)
  | _ => none

theorem words_itemsFrom (ps : List Piece) (line : Nat) :
    ((itemsFrom line ps).filterMap Except.toOption).map Token.word =
      ps.filterMap Piece.word? ++ [(.endOfInput, "")] := by
  induction ps generalizing line with
  | nil => rfl
  | cons p ps ih =>
    have hpiece : ∀ line, ((p.item? line).toList.filterMap Except.toOption).map Token.word =
        p.word?.toList := by
      intro line
      unfold Piece.item? Piece.word?
      cases p.reading <;> rfl
    rw [itemsFrom, List.filterMap_append, List.map_append, hpiece, ih, ← List.append_assoc,
      List.filterMap_cons]
    cases p.word? <;> rfl

/-- The words of a source are those of its pieces, and the end. -/
theorem words_eq (source : List UInt8) : (tokens source).map Token.word =
    (pieces source).filterMap Piece.word? ++ [(.endOfInput, "")] := by
  rw [tokens_eq_filterMap]
  exact words_itemsFrom _ _

/-! ### Joined lexemes -/

section

variable {ts : List Token} (hts : ∀ t ∈ ts, Lexeme t.kind (Utf8.encode t.lexeme)) (last : Token)

include hts

theorem words_joined : (tokens (joined (ts ++ [last]))).map Token.word =
    ts.map Token.word ++ (tokens (Utf8.encode last.lexeme)).map Token.word := by
  have hts' : (ts.flatMap fun t => [⟨Utf8.encode t.lexeme, .token t.kind⟩,
      (⟨[byte ' '], .blank⟩ : Piece)]).filterMap Piece.word? = ts.map Token.word := by
    rw [List.filterMap_flatMap, ← List.flatMap_singleton' (ts.map Token.word), List.flatMap_map]
    congr 1
    funext t
    show [(t.kind, Utf8.decodeLossy (Utf8.encode t.lexeme))] = [t.word]
    rw [Utf8.decodeLossy_of_decode? (Utf8.decode?_encode t.lexeme), Token.word]
  rw [words_eq, words_eq, pieces_joined hts, List.filterMap_append, hts', List.append_assoc]

theorem errors_joined (hlast : errors (Utf8.encode last.lexeme) = []) :
    errors (joined (ts ++ [last])) = [] := by
  rw [errors_eq_nil_iff, pieces_joined hts, List.forall_mem_append]
  refine ⟨fun p hp problem hproblem => ?_, errors_eq_nil_iff.1 hlast⟩
  obtain ⟨t, -, hp⟩ := List.mem_flatMap.1 hp
  simp only [List.mem_cons, List.not_mem_nil, or_false] at hp
  obtain rfl | rfl := hp <;> cases hproblem

end

theorem Lexeme.errors_eq {kind : Kind} {text : List UInt8} (h : Lexeme kind text) :
    errors text = [] := by
  rw [errors_eq_nil_iff, h.pieces_eq]
  intro p hp problem hproblem
  obtain rfl := List.mem_singleton.1 hp
  cases hproblem

theorem Lexeme.words_eq {t : Token} (h : Lexeme t.kind (Utf8.encode t.lexeme)) :
    (tokens (Utf8.encode t.lexeme)).map Token.word = [t.word, (.endOfInput, "")] := by
  have hpiece : Piece.word? ⟨Utf8.encode t.lexeme, .token t.kind⟩ = some t.word := by
    show some (t.kind, Utf8.decodeLossy (Utf8.encode t.lexeme)) = _
    rw [Utf8.decodeLossy_of_decode? (Utf8.decode?_encode t.lexeme), Token.word]
  rw [Lexer.words_eq, h.pieces_eq, List.filterMap_cons, hpiece]
  rfl

/-- Lexemes with one space between neighbours are read as they were. -/
theorem joined_reads_back {ts : List Token}
    (hts : ∀ t ∈ ts, Lexeme t.kind (Utf8.encode t.lexeme)) :
    errors (joined ts) = [] ∧
      (tokens (joined ts)).map Token.word = ts.map Token.word ++ [(.endOfInput, "")] := by
  rcases List.eq_nil_or_concat ts with rfl | ⟨ts, last, rfl⟩
  · exact ⟨rfl, rfl⟩
  · rw [List.concat_eq_append] at hts ⊢
    obtain ⟨hts, hlast⟩ := List.forall_mem_append.1 hts
    have hlast := hlast last (List.mem_singleton_self _)
    refine ⟨errors_joined hts last hlast.errors_eq, ?_⟩
    rw [words_joined hts, hlast.words_eq, List.map_append, List.append_assoc]
    rfl

theorem tokens_eq_spans (source : List UInt8) : tokens source =
    (spans source).filterMap Span.token? ++ [⟨.endOfInput, "", 1 + source.count newline⟩] := by
  obtain ⟨-, -, hitems⟩ := spans_spec source
  rw [tokens_eq_filterMap, hitems, List.filterMap_append, List.filterMap_filterMap]
  rfl

/-- The tokens of a source before its end are lexemes. -/
theorem lexeme_of_mem_tokens {source : List UInt8} {t : Token} (ht : t ∈ tokens source)
    (hend : t.kind ≠ .endOfInput) : Lexeme t.kind (Utf8.encode t.lexeme) := by
  rw [tokens_eq_spans] at ht
  rcases List.mem_append.1 ht with ht | ht
  · obtain ⟨s, hs, ht⟩ := List.mem_filterMap.1 ht
    have hlongest := longest_of_mem_spans hs ht
    rw [hlongest.text]
    exact hlongest.isLexeme
  · rw [List.mem_singleton.1 ht] at hend
    exact absurd rfl hend

/-- **Scanning is longest-match, and lexemes read back.** The tokens of a source, up to its end, stand
    in spans, and each of them is the longest lexeme where its span begins. If the source has no
    lexical error, then its lexemes with one space between neighbours, the empty one of its end among
    them or not, have none either and are read as tokens of the same kinds, lexemes and values. -/
theorem lexemes_longest (source : List UInt8) :
    tokens source = (spans source).filterMap Span.token? ++
      [⟨.endOfInput, "", 1 + source.count newline⟩] ∧
    (∀ s ∈ spans source, ∀ t, s.token? = some t → s.Longest source t) ∧
    (errors source = [] → ∀ ts, ts = tokens source ∨ ts = (tokens source).dropLast →
      errors (joined ts) = [] ∧
        (tokens (joined ts)).map Token.word = (tokens source).map Token.word) := by
  have hlongest : ∀ s ∈ spans source, ∀ t, s.token? = some t → s.Longest source t :=
    fun s hs t ht => longest_of_mem_spans hs ht
  have htokens := tokens_eq_spans source
  refine ⟨htokens, hlongest, fun _ ts hts => ?_⟩
  have hbody : ∀ t ∈ (spans source).filterMap Span.token?, Lexeme t.kind (Utf8.encode t.lexeme) := by
    intro t ht
    obtain ⟨s, hs, ht⟩ := List.mem_filterMap.1 ht
    have hlongest := hlongest s hs t ht
    rw [hlongest.text]
    exact hlongest.isLexeme
  rcases hts with rfl | rfl
  · -- the lexeme of the end is empty, and a space is before it if there is a token
    have hempty : Utf8.encode "" = [] :=
      Utf8.encode_of_decode? (rfl : Utf8.decode? [] = some "")
    rw [htokens]
    refine ⟨errors_joined hbody _ (by rw [hempty]; rfl), ?_⟩
    rw [words_joined hbody, List.map_append, hempty]
    rfl
  · rw [htokens, List.dropLast_concat, List.map_append]
    exact joined_reads_back hbody

/-- Two numbers and a point between them, two operators, a name that begins as a reserved word, and a
    number with a point behind it. -/
def unspaced : List UInt8 := bytesOf "1.2.3!==superb 7."

theorem lexemes_longest_unspaced : errors unspaced = [] ∧
    (tokens (joined (tokens unspaced))).map Token.word = (tokens unspaced).map Token.word ∧
      (tokens unspaced).map Token.lexeme =
        ["1.2", ".", "3", "!=", "=", "superb", "7", ".", ""] := by
  have herrors : errors unspaced = [] := by rfl
  exact ⟨herrors, ((lexemes_longest unspaced).2.2 herrors _ (.inl rfl)).2, by decide +kernel⟩

end Lexer

end Lox
