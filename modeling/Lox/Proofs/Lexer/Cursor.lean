import Lox.Token.Lexer
import Mathlib.Data.List.TakeWhile

set_option autoImplicit false

/-! # Scanning by position

A scanner that walks along a source by position: bytes are looked up by their place, and texts are
cut out between two places. A place outside of the source stops it at once (`none`). The main
statement (`outputs?_eq`) says that this never happens: asked again and again, the scanner gives the
items of the source one after the other, and nothing from then on. -/

namespace Lox.Lexer

/-! ## The scanner -/

/-- Where scanning stands. -/
structure Cursor where
  /-- The place of the first byte of the current piece. -/
  first : Nat
  /-- The place of the next byte. -/
  next : Nat
  line : Nat

/-- The bytes between two places, which must be in order and not behind the end. -/
def slice? (source : List UInt8) (first last : Nat) : Option (List UInt8) :=
  if first ≤ last ∧ last ≤ source.length then some ((source.take last).drop first) else none

namespace Cursor

variable (source : List UInt8)

def atEnd (c : Cursor) : Bool := source.length ≤ c.next

/-- The byte some places ahead, 0 behind the end. -/
def ahead (c : Cursor) (n : Nat) : UInt8 := source[c.next + n]?.getD 0

def skip (c : Cursor) (n : Nat) : Cursor := { c with next := c.next + n }

/-- The text of the current piece so far. -/
def text? (c : Cursor) : Option (List UInt8) := slice? source c.first c.next

/-- Read the next byte, which must be there. -/
def read? (c : Cursor) : Option (UInt8 × Cursor) := source[c.next]?.map (·, c.skip 1)

def countLine (b : UInt8) (c : Cursor) : Cursor :=
  if b == newline then { c with line := c.line + 1 } else c

/-- Skip bytes as long as they pass a test. -/
def skipWhile (test : UInt8 → Bool) (c : Cursor) : Cursor :=
  if c.next < source.length ∧ test (c.ahead source 0) then skipWhile test (c.skip 1) else c
termination_by source.length - c.next
decreasing_by simp only [skip]; omega

theorem read?_eq {c c' : Cursor} {b : UInt8} (h : c.read? source = some (b, c')) :
    source[c.next]? = some b ∧ c' = c.skip 1 := by
  obtain ⟨b', hb, heq⟩ := Option.map_eq_some_iff.1 h
  cases heq
  exact ⟨hb, rfl⟩

theorem countLine_next (b : UInt8) (c : Cursor) : (c.countLine b).next = c.next := by
  unfold countLine
  split <;> rfl

/-- Read on to the quote that closes a string, or to the end. -/
def readString? (c : Cursor) : Option Cursor :=
  if c.atEnd source || c.ahead source 0 == quote then some c
  else match _ : c.read? source with
    | none => none
    | some (b, c') => readString? (c'.countLine b)
termination_by source.length - c.next
decreasing_by
  obtain ⟨hb, rfl⟩ := read?_eq source ‹_›
  have := (List.getElem?_eq_some_iff.1 hb).1
  simp only [countLine_next, skip]
  omega

/-! ### Pieces, behind their first byte -/

def scanString? (c : Cursor) : Option (Reading × Cursor) := do
  let c ← c.readString? source
  if c.atEnd source then return (.problem .unterminatedString, c)
  let c := c.skip 1
  match Utf8.decode? (← slice? source (c.first + 1) (c.next - 1)) with
  | some s => return (.token (.string s), c)
  | none => return (.problem .unreadableString, c)

/-- Digits, and a point with more digits if there is a digit behind it. -/
def skipNumber (c : Cursor) : Cursor :=
  let c := c.skipWhile source isDigit
  if c.ahead source 0 == byte '.' && isDigit (c.ahead source 1) then
    (c.skip 1).skipWhile source isDigit
  else c

def scanNumber? (c : Cursor) : Option (Reading × Cursor) := do
  let c := c.skipNumber source
  return (.token (.number (numberValue (← c.text? source))), c)

def scanWord? (c : Cursor) : Option (Reading × Cursor) := do
  let c := c.skipWhile source isWordPart
  return (.token (.ofWord (Utf8.decodeLossy (← c.text? source))), c)

/-- A comment goes to the next newline or to the end. -/
def scanComment? (c : Cursor) : Option (Reading × Cursor) := do
  let rest ← slice? source c.next source.length
  match rest.findIdx? (· == newline) with
  | some n => return (.comment, c.skip n)
  | none => return (.comment, { c with next := source.length })

/-- A symbol, or a character that begins nothing. -/
def scanSymbol? (b : UInt8) (c : Cursor) : Option (Reading × Cursor) := do
  let c := if takesEqual b then (if c.ahead source 0 == byte '=' then c.skip 1 else c)
    else if 0x80 ≤ b then c.skipWhile source isContinuation else c
  let lexeme := Utf8.decodeLossy (← c.text? source)
  match Kind.symbols.lookup lexeme with
  | some kind => return (.token kind, c)
  | none => return (.problem (.unexpectedCharacter lexeme), c)

/-- Scan one piece, of which nothing has been read yet. -/
def scan? (c : Cursor) : Option (Reading × Cursor) := do
  let (b, c) ← c.read? source
  if isBlank b then return (.blank, c.countLine b)
  else if b == quote then c.scanString? source
  else if isDigit b then c.scanNumber? source
  else if isWordStart b then c.scanWord? source
  else if b == byte '/' && c.ahead source 0 == byte '/' then c.scanComment? source
  else c.scanSymbol? source b

end Cursor

/-! ## What the steps do -/

section

variable {source : List UInt8}

theorem of_drop_eq_cons {n : Nat} {b : UInt8} {rest : List UInt8} (h : source.drop n = b :: rest) :
    n < source.length ∧ source[n]? = some b ∧ source.drop (n + 1) = rest := by
  have hlt : n < source.length := Nat.lt_of_not_le fun hle => by
    rw [List.drop_eq_nil_of_le hle] at h
    exact nomatch h
  rw [List.drop_eq_getElem_cons hlt] at h
  obtain ⟨hb, hrest⟩ := List.cons.inj h
  exact ⟨hlt, by rw [List.getElem?_eq_getElem hlt, hb], hrest⟩

theorem slice?_eq {first n : Nat} (h : first + n ≤ source.length) :
    slice? source first (first + n) = some ((source.drop first).take n) := by
  rw [slice?, if_pos ⟨Nat.le_add_right _ _, h⟩, List.drop_take, Nat.add_sub_cancel_left]

/-- Bytes up to the first that does not pass a test. -/
theorem exists_run (test : UInt8 → Bool) (bs : List UInt8) : ∃ run after, bs = run ++ after ∧
    (∀ x ∈ run, test x = true) ∧ ∀ x ∈ after.head?, test x = false := by
  refine ⟨bs.takeWhile test, bs.dropWhile test, (List.takeWhile_append_dropWhile ..).symm,
    fun x hx => List.mem_takeWhile_imp hx, fun x hx => ?_⟩
  have hhead := List.head?_dropWhile_not test bs
  rw [Option.mem_def.1 hx] at hhead
  simpa using hhead

theorem takeWhile_run {test : UInt8 → Bool} {run after : List UInt8}
    (hrun : ∀ x ∈ run, test x = true) (hafter : ∀ x ∈ after.head?, test x = false) :
    (run ++ after).takeWhile test = run := by
  rw [List.takeWhile_append_of_pos hrun]
  cases after with
  | nil => simp
  | cons x after => rw [List.takeWhile_cons_of_neg (by simp [hafter x rfl]), List.append_nil]

theorem runLength_run {test : UInt8 → Bool} {run after : List UInt8}
    (hrun : ∀ x ∈ run, test x = true) (hafter : ∀ x ∈ after.head?, test x = false) :
    runLength test (run ++ after) = run.length :=
  congrArg List.length (takeWhile_run hrun hafter)

/-- A fraction needs a point and a digit behind it. -/
theorem numberExtent_run {whole after : List UInt8} (hwhole : ∀ x ∈ whole, isDigit x = true)
    (hafter : ∀ x ∈ after.head?, isDigit x = false) :
    numberExtent (whole ++ after) = whole.length +
      if after.head? = some (byte '.') ∧ (after[1]?.any isDigit) = true then
        1 + runLength isDigit after.tail else 0 := by
  rw [numberExtent, runLength_run hwhole hafter, List.drop_left]
  match after with
  | [] => rfl
  | [_] => simp
  | point :: digit :: rest =>
    cases hdigit : isDigit digit with
    | false => simp [hdigit]
    | true =>
      by_cases hpoint : point = byte '.'
      · simp [hpoint, hdigit, runLength]; omega
      · simp [hpoint]

theorem numberExtent_le (bs : List UInt8) : numberExtent bs ≤ bs.length := by
  obtain ⟨whole, after, rfl, hwhole, hafter⟩ := exists_run isDigit bs
  rw [numberExtent_run hwhole hafter, List.length_append]
  have hle : runLength isDigit after.tail ≤ after.tail.length := (List.takeWhile_prefix _).length_le
  split
  · next hand =>
    cases after with
    | nil => exact nomatch hand.1
    | cons _ _ => simp only [List.tail_cons, List.length_cons] at hle ⊢; omega
  · omega

/-- How far a symbol goes, or a character that begins nothing. -/
def symbolExtent (b : UInt8) (bs : List UInt8) : Nat :=
  if takesEqual b then (if bs.head? == some (byte '=') then 1 else 0)
  else if 0x80 ≤ b then runLength isContinuation bs else 0

theorem runLength_le (test : UInt8 → Bool) (bs : List UInt8) : runLength test bs ≤ bs.length :=
  (List.takeWhile_prefix _).length_le

theorem symbolExtent_le (b : UInt8) (bs : List UInt8) : symbolExtent b bs ≤ bs.length := by
  unfold symbolExtent
  split
  · cases bs with
    | nil => simp
    | cons _ _ => simp only [List.length_cons]; split <;> omega
  · split
    · exact runLength_le _ _
    · exact Nat.zero_le _

theorem take_runLength (test : UInt8 → Bool) (bs : List UInt8) :
    bs.take (runLength test bs) = bs.takeWhile test :=
  (List.prefix_iff_eq_take.1 (List.takeWhile_prefix test)).symm

/-- The bytes of a run pass its test. -/
theorem of_mem_run {test : UInt8 → Bool} {bs : List UInt8} {x : UInt8}
    (h : x ∈ bs.take (runLength test bs)) : test x = true := by
  rw [take_runLength] at h
  exact List.mem_takeWhile_imp h

/-- A number has digits in it, and points. -/
theorem of_mem_number {bs : List UInt8} {x : UInt8} (h : x ∈ bs.take (numberExtent bs)) :
    isDigit x = true ∨ x = byte '.' := by
  obtain ⟨whole, after, rfl, hwhole, hafter⟩ := exists_run isDigit bs
  rw [numberExtent_run hwhole hafter, List.take_length_add_append] at h
  rcases List.mem_append.1 h with h | h
  · exact .inl (hwhole x h)
  · split at h
    · next hfraction =>
      cases after with
      | nil => exact nomatch hfraction.1
      | cons point after =>
        rw [Nat.add_comm, List.take_succ_cons] at h
        rcases List.mem_cons.1 h with rfl | h
        · exact .inr (Option.some.inj hfraction.1)
        · exact .inl (of_mem_run h)
    · cases h

theorem newline_not_mem_run {test : UInt8 → Bool} (htest : test newline = false)
    (bs : List UInt8) : newline ∉ bs.take (runLength test bs) := fun hmem => by
  rw [of_mem_run hmem] at htest
  cases htest

theorem newline_not_mem_number (bs : List UInt8) : newline ∉ bs.take (numberExtent bs) :=
  fun hmem => absurd (of_mem_number hmem) (by decide)

/-- Only blanks and strings have newlines in them. -/
theorem newline_not_mem_extent {b : UInt8} (hquote : b ≠ quote) (bs : List UInt8) :
    newline ∉ bs.take (extent b bs) := by
  unfold extent
  rw [if_neg (by simpa using hquote)]
  split
  · exact newline_not_mem_number bs
  · split
    · exact newline_not_mem_run rfl bs
    · split
      · split
        · exact newline_not_mem_run rfl bs
        · simp
      · split
        · split
          · next hequal =>
            cases bs with
            | nil => exact nomatch hequal
            | cons x bs =>
              have hx : x = byte '=' := by simpa using hequal
              rw [hx, List.take_succ_cons, List.take_zero]
              decide
          · simp
        · split
          · exact newline_not_mem_run rfl bs
          · simp

theorem extent_of_isBlank {b : UInt8} (h : isBlank b = true) (bs : List UInt8) :
    extent b bs = 0 := by
  simp only [isBlank, Bool.or_eq_true, beq_iff_eq] at h
  obtain ((rfl | rfl) | rfl) | rfl := h <;> rfl

theorem extent_of_slashes {bs : List UInt8} (h : bs.head? = some (byte '/')) :
    extent (byte '/') bs = runLength (· != newline) bs := by
  simp [extent, h, show (byte '/' == quote) = false from rfl, show isDigit (byte '/') = false from rfl,
    show isWordStart (byte '/') = false from rfl]

theorem extent_eq_symbolExtent {b : UInt8} {bs : List UInt8} (hquote : (b == quote) = false)
    (hdigit : isDigit b = false) (hword : isWordStart b = false)
    (hcomment : ¬ (b = byte '/' ∧ bs.head? = some (byte '/'))) :
    extent b bs = symbolExtent b bs := by
  simp only [extent, hquote, hdigit, hword, Bool.false_eq_true, if_false, symbolExtent]
  by_cases hslash : b = byte '/'
  · subst hslash
    simp [show takesEqual (byte '/') = false from rfl, show ¬ 0x80 ≤ byte '/' by decide,
      show bs.head? ≠ some (byte '/') from fun hhead => hcomment ⟨rfl, hhead⟩]
  · simp [hslash]

theorem extent_le (b : UInt8) (bs : List UInt8) : extent b bs ≤ bs.length := by
  cases hquote : b == quote with
  | true =>
    have hbody := runLength_le (· != quote) bs
    simp only [extent, hquote, if_true, stringExtent]
    split <;> omega
  | false =>
    cases hdigit : isDigit b with
    | true => simpa [extent, hquote, hdigit] using numberExtent_le bs
    | false =>
      cases hword : isWordStart b with
      | true => simpa [extent, hquote, hdigit, hword] using runLength_le isWordPart bs
      | false =>
        by_cases hcomment : b = byte '/' ∧ bs.head? = some (byte '/')
        · rw [hcomment.1, extent_of_slashes hcomment.2]
          exact runLength_le _ _
        · rw [extent_eq_symbolExtent hquote hdigit hword hcomment]
          exact symbolExtent_le b bs

/-- A string that is closed, from behind its first quote. -/
theorem Reading.ofString_closed (body : List UInt8) :
    Reading.ofString (body ++ [quote]) = match Utf8.decode? body with
      | some s => .token (.string s)
      | none => .problem .unreadableString := by
  rw [ofString, List.getLast?_concat, List.dropLast_concat]
  rfl

theorem Reading.of_ofString {rest : List UInt8} {kind : Kind}
    (h : Reading.ofString rest = .token kind) : ∃ value, kind = .string value := by
  rw [ofString] at h
  split at h
  · split at h
    · cases h
      exact ⟨_, rfl⟩
    · cases h
  · cases h

theorem mem_of_lookup {table : List (String × Kind)} {text : String} {kind : Kind}
    (h : table.lookup text = some kind) : (text, kind) ∈ table := by
  obtain ⟨before, after, rfl, -⟩ := List.lookup_eq_some_iff.1 h
  exact List.mem_append_right _ List.mem_cons_self

/-- A token is a string, a number, a word or a symbol, as its first byte tells. -/
theorem Reading.of_ofText {b : UInt8} {rest : List UInt8} {kind : Kind}
    (h : Reading.ofText (b :: rest) = .token kind) :
    (b = quote ∧ Reading.ofString rest = .token kind) ∨
      (isDigit b = true ∧ kind = .number (numberValue (b :: rest))) ∨
      (isWordStart b = true ∧ kind = .ofWord (Utf8.decodeLossy (b :: rest))) ∨
      (Utf8.decodeLossy (b :: rest), kind) ∈ Kind.symbols := by
  rw [ofText] at h
  split at h
  · cases h
  split at h
  · next hquote => exact .inl ⟨beq_iff_eq.1 hquote, h⟩
  split at h
  · next hdigit =>
    cases h
    exact .inr (.inl ⟨hdigit, rfl⟩)
  dsimp only at h
  split at h
  · next hword =>
    cases h
    exact .inr (.inr (.inl ⟨hword, rfl⟩))
  split at h
  · cases h
  split at h
  · next hlookup =>
    cases h
    exact .inr (.inr (.inr (mem_of_lookup hlookup)))
  · cases h

namespace Cursor

variable {c : Cursor} {b : UInt8} {rest : List UInt8}

theorem skip_skip (c : Cursor) (m n : Nat) : (c.skip m).skip n = c.skip (m + n) := by
  simp only [skip, Nat.add_assoc]

theorem ahead_eq (c : Cursor) (n : Nat) : c.ahead source n = (source.drop c.next)[n]?.getD 0 := by
  rw [ahead, List.getElem?_drop]

/-- Bytes are skipped up to the first that does not pass the test. -/
theorem skipWhile_eq (test : UInt8 → Bool) : ∀ (rest : List UInt8) (c : Cursor),
    source.drop c.next = rest → c.skipWhile source test = c.skip (runLength test rest) := by
  intro rest
  induction rest with
  | nil =>
    intro c h
    have hle : source.length ≤ c.next := List.drop_eq_nil_iff.1 h
    rw [skipWhile, if_neg fun hlt => Nat.not_lt.2 hle hlt.1]
    rfl
  | cons b rest ih =>
    intro c h
    obtain ⟨hlt, hb, hrest⟩ := of_drop_eq_cons h
    have hahead : c.ahead source 0 = b := by rw [ahead, Nat.add_zero, hb]; rfl
    rw [skipWhile, hahead]
    cases htest : test b with
    | false =>
      rw [if_neg fun hand => Bool.false_ne_true hand.2, runLength,
        List.takeWhile_cons_of_neg (by simp [htest])]
      rfl
    | true =>
      rw [if_pos ⟨hlt, rfl⟩, ih (c.skip 1) hrest, skip_skip, runLength, runLength,
        List.takeWhile_cons_of_pos htest, List.length_cons, Nat.add_comm]

theorem readString?_eq : ∀ (rest : List UInt8) (c : Cursor), source.drop c.next = rest →
    c.readString? source = some ⟨c.first, c.next + runLength (· != quote) rest,
      c.line + (rest.takeWhile (· != quote)).count newline⟩ := by
  intro rest
  induction rest with
  | nil =>
    intro c h
    have hle : source.length ≤ c.next := List.drop_eq_nil_iff.1 h
    rw [readString?, atEnd, decide_eq_true hle]
    rfl
  | cons b rest ih =>
    intro c h
    obtain ⟨hlt, hb, hrest⟩ := of_drop_eq_cons h
    have hahead : c.ahead source 0 = b := by rw [ahead, Nat.add_zero, hb]; rfl
    have hend : c.atEnd source = false := decide_eq_false (Nat.not_le.2 hlt)
    have hread : c.read? source = some (b, c.skip 1) := by rw [read?, hb]; rfl
    rw [readString?, hahead, hend, Bool.false_or]
    cases hquote : b == quote with
    | true =>
      simp [runLength, bne, hquote]
    | false =>
      have hpos : (b != quote) = true := by rw [bne, hquote]; rfl
      simp only [Bool.false_eq_true, if_false]
      split
      · next hnone => exact nomatch hnone.symm.trans hread
      · next b' c' hsome =>
        cases hsome.symm.trans hread
        have htake : (b :: rest).takeWhile (· != quote) = b :: rest.takeWhile (· != quote) :=
          List.takeWhile_cons_of_pos hpos
        rw [ih _ (by rw [countLine_next]; exact hrest), countLine_next, runLength, runLength, htake,
          List.length_cons, List.count_cons, countLine]
        cases b == newline <;> simp [skip] <;> omega

/-! ### Single pieces -/

section

variable {pos line : Nat} (h : source.drop pos = b :: rest)

include h

theorem length_of_drop : pos + 1 + rest.length = source.length := by
  have hlength := congrArg List.length h
  have hlt := (of_drop_eq_cons h).1
  simp only [List.length_drop, List.length_cons] at hlength
  omega

/-- The text of a piece by the number of bytes behind the first. -/
theorem text?_eq {n : Nat} (hn : n ≤ rest.length) :
    text? source ⟨pos, pos + 1 + n, line⟩ = some (b :: rest.take n) := by
  have hlength := length_of_drop h
  show slice? source pos (pos + 1 + n) = _
  rw [Nat.add_assoc, slice?_eq (by omega), h, Nat.add_comm 1 n, List.take_succ_cons]

theorem scanString?_eq : scanString? source ⟨pos, pos + 1, line⟩ =
    some (.ofString (rest.take (stringExtent rest)), ⟨pos, pos + 1 + stringExtent rest,
      line + (rest.take (stringExtent rest)).count newline⟩) := by
  have hlength := length_of_drop h
  have hrest : source.drop (pos + 1) = rest := (of_drop_eq_cons h).2.2
  have hread := readString?_eq rest ⟨pos, pos + 1, line⟩ hrest
  obtain ⟨body, after, rfl, hbody, hafter⟩ := exists_run (· != quote) rest
  rw [runLength_run hbody hafter, takeWhile_run hbody hafter] at hread
  unfold scanString? stringExtent
  rw [hread, runLength_run hbody hafter]
  rw [List.length_append] at hlength
  cases after with
  | nil =>
    -- no quote closes the string
    have hend : atEnd source ⟨pos, pos + 1 + body.length, line + body.count newline⟩ = true :=
      decide_eq_true (by simpa using hlength.ge)
    have hopen : body.getLast? ≠ some quote := fun hlast => by
      simpa using hbody quote (List.mem_of_getLast? hlast)
    simp [hend, Reading.ofString, hopen]
  | cons q after =>
    obtain rfl : q = quote := by simpa using hafter q rfl
    have hend : atEnd source ⟨pos, pos + 1 + body.length, line + body.count newline⟩ = false :=
      decide_eq_false (by simp only [List.length_cons] at hlength; simp; omega)
    have hslice : slice? source (pos + 1) (pos + 1 + body.length) = some body := by
      rw [slice?_eq (by omega), hrest, List.take_left]
    have htake : (body ++ quote :: after).take (body.length + 1) = body ++ [quote] := by
      rw [List.take_length_add_append]
      rfl
    have hcount : (body ++ [quote]).count newline = body.count newline := by
      rw [List.count_append, show [quote].count newline = 0 from rfl, Nat.add_zero]
    have hextent : body.length < (body ++ quote :: after).length := by simp
    rw [if_pos hextent, htake, hcount, Reading.ofString_closed]
    simp only [Option.bind_eq_bind, Option.bind_some, hend, skip, Nat.add_sub_cancel, hslice]
    cases Utf8.decode? body <;> rfl

theorem scanWord?_eq : scanWord? source ⟨pos, pos + 1, line⟩ =
    some (.token (.ofWord (Utf8.decodeLossy (b :: rest.take (runLength isWordPart rest)))),
      ⟨pos, pos + 1 + runLength isWordPart rest, line⟩) := by
  have hrest : source.drop (pos + 1) = rest := (of_drop_eq_cons h).2.2
  unfold scanWord?
  rw [skipWhile_eq isWordPart rest _ hrest]
  have htext : text? source ⟨pos, pos + 1 + runLength isWordPart rest, line⟩ = _ :=
    text?_eq h (runLength_le _ _)
  simp only [skip, htext]
  rfl

omit h in
theorem skipNumber_eq (hrest : source.drop (pos + 1) = rest) :
    skipNumber source ⟨pos, pos + 1, line⟩ = ⟨pos, pos + 1 + numberExtent rest, line⟩ := by
  unfold skipNumber
  rw [skipWhile_eq isDigit rest _ hrest]
  obtain ⟨whole, after, rfl, hwhole, hafter⟩ := exists_run isDigit rest
  rw [numberExtent_run hwhole hafter, runLength_run hwhole hafter]
  have hdrop : source.drop (pos + 1 + whole.length) = after := by
    rw [← List.drop_drop, hrest, List.drop_left]
  have hdrop' : source.drop (pos + 1 + whole.length + 1) = after.tail := by
    rw [← List.drop_drop, hdrop, List.drop_one]
  have hahead : ∀ n, ahead source (skip ⟨pos, pos + 1, line⟩ whole.length) n = after[n]?.getD 0 :=
    fun n => by rw [ahead_eq, show (skip _ _).next = pos + 1 + whole.length from rfl, hdrop]
  have hfraction : (after[0]?.getD 0 == byte '.' && isDigit (after[1]?.getD 0)) =
      decide (after.head? = some (byte '.') ∧ (after[1]?.any isDigit) = true) := by
    match after with
    | [] => rfl
    | [point] => simp [show isDigit 0 = false from rfl]
    | point :: digit :: _ => simp [Bool.beq_eq_decide_eq]
  simp only [hahead, hfraction, decide_eq_true_eq]
  split
  · rw [skipWhile_eq isDigit after.tail _ hdrop', skip_skip, skip_skip]
    simp only [skip, Nat.add_assoc]
  · rfl

theorem scanNumber?_eq : scanNumber? source ⟨pos, pos + 1, line⟩ =
    some (.token (.number (numberValue (b :: rest.take (numberExtent rest)))),
      ⟨pos, pos + 1 + numberExtent rest, line⟩) := by
  have htext : text? source ⟨pos, pos + 1 + numberExtent rest, line⟩ = _ :=
    text?_eq h (numberExtent_le rest)
  unfold scanNumber?
  rw [skipNumber_eq (of_drop_eq_cons h).2.2]
  simp only [htext]
  rfl

theorem scanComment?_eq : scanComment? source ⟨pos, pos + 1, line⟩ =
    some (.comment, ⟨pos, pos + 1 + runLength (· != newline) rest, line⟩) := by
  have hrest : source.drop (pos + 1) = rest := (of_drop_eq_cons h).2.2
  have hlength := length_of_drop h
  have hslice : slice? source (pos + 1) source.length = some rest := by
    rw [← hlength, slice?_eq hlength.le, hrest, List.take_length]
  unfold scanComment?
  simp only [hslice, Option.bind_eq_bind, Option.bind_some]
  obtain ⟨run, after, rfl, hrun, hafter⟩ := exists_run (· != newline) rest
  rw [runLength_run hrun hafter]
  have hnone : run.findIdx? (· == newline) = none := List.findIdx?_eq_none_iff.2 fun x hx => by
    simpa using hrun x hx
  rw [List.findIdx?_append, hnone]
  cases after with
  | nil => simp [← hlength]
  | cons x after =>
    obtain rfl : x = newline := by simpa using hafter x rfl
    simp [List.findIdx?_cons, skip]

theorem scanSymbol?_eq : scanSymbol? source b ⟨pos, pos + 1, line⟩ =
    some (match Kind.symbols.lookup (Utf8.decodeLossy (b :: rest.take (symbolExtent b rest))) with
      | some kind => .token kind
      | none => .problem (.unexpectedCharacter
          (Utf8.decodeLossy (b :: rest.take (symbolExtent b rest)))),
      ⟨pos, pos + 1 + symbolExtent b rest, line⟩) := by
  have hrest : source.drop (pos + 1) = rest := (of_drop_eq_cons h).2.2
  have htext : text? source ⟨pos, pos + 1 + symbolExtent b rest, line⟩ = _ :=
    text?_eq h (symbolExtent_le b rest)
  have hskip : (if takesEqual b then
      (if ahead source ⟨pos, pos + 1, line⟩ 0 == byte '=' then skip ⟨pos, pos + 1, line⟩ 1
        else ⟨pos, pos + 1, line⟩)
      else if 0x80 ≤ b then skipWhile source isContinuation ⟨pos, pos + 1, line⟩
        else ⟨pos, pos + 1, line⟩) = ⟨pos, pos + 1 + symbolExtent b rest, line⟩ := by
    have hahead : ahead source ⟨pos, pos + 1, line⟩ 0 = rest.head?.getD 0 := by
      rw [ahead_eq, hrest, List.head?_eq_getElem?]
    have hequal : (rest.head?.getD 0 == byte '=') = (rest.head? == some (byte '=')) := by
      cases rest <;> rfl
    rw [hahead, hequal, skipWhile_eq isContinuation rest _ hrest, symbolExtent]
    split
    · split <;> rfl
    · split <;> rfl
  unfold scanSymbol?
  rw [hskip]
  simp only [htext, Option.bind_eq_bind, Option.bind_some]
  cases Kind.symbols.lookup (Utf8.decodeLossy (b :: rest.take (symbolExtent b rest))) <;> rfl

/-- One piece is scanned as it is cut. -/
theorem scan?_eq : scan? source ⟨pos, pos, line⟩ =
    some (.ofText (b :: rest.take (extent b rest)), ⟨pos, pos + 1 + extent b rest,
      line + (b :: rest.take (extent b rest)).count newline⟩) := by
  obtain ⟨-, hb, hrest⟩ := of_drop_eq_cons h
  have hread : read? source ⟨pos, pos, line⟩ = some (b, ⟨pos, pos + 1, line⟩) := by
    rw [read?, hb]
    rfl
  have hahead : ahead source ⟨pos, pos + 1, line⟩ 0 = rest.head?.getD 0 := by
    rw [ahead_eq, hrest, List.head?_eq_getElem?]
  unfold scan?
  rw [hread]
  simp only [Option.bind_eq_bind, Option.bind_some, hahead]
  rw [Reading.ofText]
  by_cases hblank : isBlank b = true
  · rw [if_pos hblank, if_pos hblank, extent_of_isBlank hblank, List.take_zero,
      List.count_singleton, countLine]
    split <;> rfl
  rw [if_neg hblank, if_neg hblank]
  by_cases hquote : b = quote
  · subst hquote
    have hcount : (quote :: rest.take (stringExtent rest)).count newline =
        (rest.take (stringExtent rest)).count newline := List.count_cons_of_ne (by decide)
    exact hcount ▸ scanString?_eq h
  have hcount : (b :: rest.take (extent b rest)).count newline = 0 := by
    refine List.count_eq_zero.2 fun hmem => ?_
    rcases List.mem_cons.1 hmem with rfl | hmem
    · exact hblank rfl
    · exact newline_not_mem_extent hquote rest hmem
  rw [hcount, Nat.add_zero]
  have hquote : (b == quote) = false := by simpa using hquote
  simp only [hquote, Bool.false_eq_true, if_false]
  cases hdigit : isDigit b with
  | true =>
    have hextent : extent b rest = numberExtent rest := by
      simp only [extent, hquote, hdigit, Bool.false_eq_true, if_false, if_true]
    rw [hextent]
    exact scanNumber?_eq h
  | false =>
    cases hword : isWordStart b with
    | true =>
      have hextent : extent b rest = runLength isWordPart rest := by
        simp only [extent, hquote, hdigit, hword, Bool.false_eq_true, if_false, if_true]
      rw [hextent]
      exact scanWord?_eq h
    | false =>
      simp only [Bool.false_eq_true, if_false]
      by_cases hcomment : b = byte '/' ∧ rest.head? = some (byte '/')
      · obtain ⟨rfl, hslash⟩ := hcomment
        have hextent := extent_of_slashes hslash
        have hhead : (rest.take (runLength (· != newline) rest)).head? = some (byte '/') := by
          cases rest with
          | nil => exact nomatch hslash
          | cons x rest =>
            obtain rfl : x = byte '/' := Option.some.inj hslash
            rw [take_runLength, List.takeWhile_cons_of_pos (by decide)]
            rfl
        rw [hextent, hhead, hslash]
        exact scanComment?_eq h
      · have hextent := extent_eq_symbolExtent hquote hdigit hword hcomment
        have hscan : (b == byte '/' && rest.head?.getD 0 == byte '/') = false := by
          cases rest with
          | nil => simp [show (0 == byte '/') = false from rfl]
          | cons x rest => simpa using hcomment
        have htext : (b == byte '/' && (rest.take (extent b rest)).head? == some (byte '/')) =
            false := Bool.eq_false_iff.2 fun hslash => hcomment (by
          rw [Bool.and_eq_true, beq_iff_eq, beq_iff_eq, List.head?_take] at hslash
          split at hslash
          · exact nomatch hslash.2
          · exact hslash)
        simp only [hscan, htext, Bool.false_eq_true, if_false]
        rw [hextent]
        exact scanSymbol?_eq h

end

end Cursor

end

/-! ## Items -/

/-- An item of some pieces is that of one of them, or the end of the input. -/
theorem of_mem_itemsFrom {ps : List Piece} {line : Nat} {item : Item}
    (h : item ∈ itemsFrom line ps) :
    (∃ p ∈ ps, ∃ line', p.item? line' = some item) ∨ ∃ line', item = .ok ⟨.endOfInput, "", line'⟩ := by
  induction ps generalizing line with
  | nil => exact .inr ⟨line, List.mem_singleton.1 h⟩
  | cons p ps ih =>
    rcases List.mem_append.1 h with h | h
    · exact .inl ⟨p, List.mem_cons_self, _, Option.mem_toList.1 h⟩
    · exact (ih h).imp_left fun ⟨p', hp', hitem⟩ => ⟨p', List.mem_cons_of_mem _ hp', hitem⟩

theorem Cursor.lt_of_scan? {source : List UInt8} {c c' : Cursor} {reading : Reading}
    (hend : c.atEnd source = false)
    (h : scan? source { c with first := c.next } = some (reading, c')) : c.next < c'.next := by
  have hlt : c.next < source.length := by simpa [atEnd] using hend
  have hscan : scan? source ⟨c.next, c.next, c.line⟩ = _ := scan?_eq (List.drop_eq_getElem_cons hlt)
  cases hscan.symm.trans h
  simp only
  omega

/-- Scan up to the next item; there is none before the end of the source. -/
def Cursor.item? (source : List UInt8) (c : Cursor) : Option (Option Item × Cursor) :=
  if _ : c.atEnd source then some (none, c)
  else match _ : scan? source { c with first := c.next } with
    | none => none
    | some (.token kind, c') => do
      return (some (.ok ⟨kind, Utf8.decodeLossy (← c'.text? source), c'.line⟩), c')
    | some (.problem problem, c') => some (some (.error (.lexical c'.line problem)), c')
    | some (.blank, c') | some (.comment, c') => item? source c'
termination_by source.length - c.next
decreasing_by
  all_goals
    have hlt : c.next < source.length := by simpa [atEnd] using ‹¬ c.atEnd source = true›
    have := lt_of_scan? (Bool.eq_false_iff.2 ‹_›) ‹_›
    omega

/-- The scanner of a source. -/
structure Scanner where
  cursor : Cursor
  /-- Whether the end of the source has been given out. -/
  finished : Bool

namespace Scanner

/-- A scanner that has given out nothing. -/
def start : Scanner := ⟨⟨0, 0, 1⟩, false⟩

/-- Ask for the next item. -/
def next? (source : List UInt8) (s : Scanner) : Option (Option Item × Scanner) :=
  if s.finished then some (none, s)
  else do
    match ← s.cursor.item? source with
    | (some item, c) => return (some item, { s with cursor := c })
    | (none, c) => return (some (.ok ⟨.endOfInput, "", c.line⟩), ⟨c, true⟩)

/-- The answers to some requests in a row. -/
def outputs? (source : List UInt8) : Nat → Scanner → Option (List (Option Item))
  | 0, _ => some []
  | n + 1, s => do
    let (output, s) ← s.next? source
    return output :: (← outputs? source n s)

end Scanner

theorem pieces_cons (b : UInt8) (bs : List UInt8) :
    pieces (b :: bs) = ⟨b :: bs.take (extent b bs), .ofText (b :: bs.take (extent b bs))⟩ ::
      pieces (bs.drop (extent b bs)) := by
  rw [pieces, piecesFrom, piecesFrom_eq_pieces_drop]

/-- The next item is the first one of what has not been scanned yet. -/
theorem Cursor.item?_eq (source : List UInt8) (rest : List UInt8) (c : Cursor)
    (h : source.drop c.next = rest) :
    ∃ item? c', c.item? source = some (item?, c') ∧
      itemsFrom c.line (pieces rest) = match item? with
        | none => [.ok ⟨.endOfInput, "", c'.line⟩]
        | some item => item :: itemsFrom c'.line (pieces (source.drop c'.next)) := by
  cases rest with
  | nil =>
    have hend : c.atEnd source = true := decide_eq_true (List.drop_eq_nil_iff.1 h)
    exact ⟨none, c, by rw [item?, dif_pos hend], rfl⟩
  | cons b bs =>
    have hlt := (of_drop_eq_cons h).1
    have hend : ¬ c.atEnd source = true := by simpa [atEnd] using hlt
    have hscan : scan? source ⟨c.next, c.next, c.line⟩ = _ := scan?_eq h
    have hdrop : source.drop (c.next + 1 + extent b bs) = bs.drop (extent b bs) := by
      rw [← List.drop_drop, (of_drop_eq_cons h).2.2]
    rw [pieces_cons, itemsFrom, item?, dif_neg hend]
    generalize Reading.ofText (b :: bs.take (extent b bs)) = reading at hscan ⊢
    split
    · next hs => exact nomatch hs.symm.trans hscan
    · next kind c' hs =>
      cases hs.symm.trans hscan
      have htext : text? source ⟨c.next, c.next + 1 + extent b bs, c.line +
          (b :: bs.take (extent b bs)).count newline⟩ = _ := text?_eq h (extent_le b bs)
      exact ⟨_, _, by rw [htext]; rfl, by rw [hdrop]; rfl⟩
    · next problem c' hs =>
      cases hs.symm.trans hscan
      exact ⟨_, _, rfl, by rw [hdrop]; rfl⟩
    · next c' hs =>
      cases hs.symm.trans hscan
      exact item?_eq source (bs.drop (extent b bs)) _ hdrop
    · next c' hs =>
      cases hs.symm.trans hscan
      exact item?_eq source (bs.drop (extent b bs)) _ hdrop
termination_by (source.drop c.next).length
decreasing_by all_goals
  rw [h, show source.drop _ = _ from hdrop, List.length_drop, List.length_cons]
  omega

namespace Scanner

/-- What a scanner has not given out yet. -/
def items (source : List UInt8) (s : Scanner) : List Item :=
  if s.finished then [] else itemsFrom s.cursor.line (pieces (source.drop s.cursor.next))

theorem next?_eq (source : List UInt8) (s : Scanner) : ∃ s', s.next? source =
    some ((s.items source).head?, s') ∧ s'.items source = (s.items source).tail := by
  unfold next?
  cases hfinished : s.finished with
  | true => exact ⟨s, by simp [items, hfinished], by simp [items, hfinished]⟩
  | false =>
    obtain ⟨item?, c, hitem, hitems⟩ := s.cursor.item?_eq source _ rfl
    have hs : s.items source = _ := (if_neg (by simp [hfinished])).trans hitems
    rw [hitem, hs]
    cases item? with
    | none => exact ⟨⟨c, true⟩, rfl, rfl⟩
    | some item => exact ⟨⟨c, false⟩, rfl, rfl⟩

/-- **Scanning by position gives the items of a source**, each once and in order, and nothing from
    then on. It never looks for a byte outside of the source. -/
theorem outputs?_eq (source : List UInt8) (n : Nat) (s : Scanner) :
    s.outputs? source n = some ((List.range n).map fun i => (s.items source)[i]?) := by
  induction n generalizing s with
  | zero => rfl
  | succ n ih =>
    obtain ⟨s', hnext, hitems⟩ := s.next?_eq source
    simp only [outputs?, hnext, Option.bind_eq_bind, Option.bind_some, ih, hitems,
      List.head?_eq_getElem?, List.getElem?_tail, List.range_succ_eq_map, List.map_cons,
      List.map_map]
    rfl

end Scanner

end Lox.Lexer
