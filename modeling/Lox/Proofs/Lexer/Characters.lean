import Lox.Proofs.Lexer.Seam

set_option autoImplicit false

/-! # Scanning by characters

The scanner reads bytes. In a source that is a text, no piece begins or ends inside a character
(`exists_front`), so that what is reported is reported of whole characters. Which characters are to
be reported is said of the text alone (`strays`): those outside of strings and comments that no token
begins with and that are no blanks. They are the ones that are reported (`scans_by_characters`). -/

namespace Lox

/-- Whether an error reports a character that begins no token. -/
def Error.isUnexpectedCharacter : Error → Bool
  | .lexical _ (.unexpectedCharacter _) => true
  | _ => false

namespace Lexer

open Utf8 (ofChars)

/-! ## The characters of a text -/

/-- What a character of a text belongs to. -/
inductive Region where
  | code
  | string
  | comment

/-- The characters that belong to no string and to no comment, each with the place of its first
    byte. A string begins with a quote and ends with the next one, a comment begins with two slashes
    and ends before a newline; where there is none, they end with the text. -/
def outside : Region → Nat → List Char → List (Nat × Char)
  | _, _, [] => []
  | .code, place, c :: cs =>
    if c = '"' then outside .string (place + c.utf8Size) cs
    else if c = '/' ∧ cs.head? = some '/' then outside .comment (place + c.utf8Size) cs
    else (place, c) :: outside .code (place + c.utf8Size) cs
  | .string, place, c :: cs =>
    outside (if c = '"' then .code else .string) (place + c.utf8Size) cs
  | .comment, place, c :: cs =>
    if c = '\n' then (place, c) :: outside .code (place + c.utf8Size) cs
    else outside .comment (place + c.utf8Size) cs

/-- The characters that tokens begin with: letters, the underscore, digits, the quote and the first
    characters of the symbols. -/
def beginsToken (c : Char) : Bool :=
  c.isAlpha || c == '_' || c.isDigit || c == '"' ||
    Kind.symbols.any fun symbol => symbol.1.toList.head? == some c

/-- A character that begins no token and is no blank. -/
def isStray (c : Char) : Bool := !beginsToken c && !([' ', '\t', '\r', '\n'].contains c)

/-- The stray characters of a text outside of its strings and comments, with their places. -/
def strays (place : Nat) (cs : List Char) : List (Nat × Char) :=
  (outside .code place cs).filter fun p => isStray p.2

/-! ## Bytes of characters -/

/-- What holds of the characters of one byte holds of each of them. -/
theorem ascii_forall {P : Char → UInt8 → Prop}
    (h : ∀ n : Fin 128, P (Char.ofNat n) (UInt8.ofNat n)) {c : Char} (hc : c.toNat < 0x80) :
    P c (byte c) := by
  have hn := h ⟨c.toNat, hc⟩
  rwa [Char.ofNat_toNat] at hn

theorem ascii_of_mem_symbols : ∀ p ∈ Kind.symbols, ∀ d ∈ p.1.toList, d.toNat < 0x80 := by
  have hall : Kind.symbols.all (fun p => p.1.toList.all fun d => decide (d.toNat < 0x80)) = true := by
    decide +kernel
  simpa only [List.all_eq_true, decide_eq_true_eq] using hall

theorem ascii_of_beginsToken {c : Char} (h : beginsToken c = true) : c.toNat < 0x80 := by
  have hbelow : ∀ d : Char, d.toNat < 0x80 → c.val ≤ d.val → c.toNat < 0x80 := fun d hd hle =>
    Nat.lt_of_le_of_lt (UInt32.le_iff_toNat_le.1 hle) hd
  have hupper : c.isUpper = true → c.toNat < 0x80 := fun h =>
    hbelow 'Z' (by decide) (of_decide_eq_true h).2
  have hlower : c.isLower = true → c.toNat < 0x80 := fun h =>
    hbelow 'z' (by decide) (of_decide_eq_true (Bool.and_eq_true_iff.1 h).2)
  have hletter : c.isAlpha = true → c.toNat < 0x80 := fun h =>
    (Bool.or_eq_true_iff.1 h).elim hupper hlower
  have hdigit : c.isDigit = true → c.toNat < 0x80 := fun h =>
    hbelow '9' (by decide) (of_decide_eq_true (Bool.and_eq_true_iff.1 h).2)
  simp only [beginsToken, Bool.or_eq_true, beq_iff_eq, List.any_eq_true] at h
  obtain (((h | rfl) | h) | rfl) | ⟨symbol, hmem, h⟩ := h
  · exact hletter h
  · decide
  · exact hdigit h
  · decide
  · exact ascii_of_mem_symbols _ hmem c (List.mem_of_mem_head? h)

theorem isStray_of_wide {c : Char} (h : 0x80 ≤ c.toNat) : isStray c = true := by
  have hblank : ∀ d ∈ [' ', '\t', '\r', '\n'], d.toNat < 0x80 := by simp
  rw [isStray, Bool.eq_false_iff.2 fun hbegins => Nat.not_lt.2 h (ascii_of_beginsToken hbegins),
    Bool.eq_false_iff.2 fun hmem => Nat.not_lt.2 h (hblank c (List.contains_iff_mem.1 hmem))]
  rfl

theorem ascii_byte {c : Char} (hc : c.toNat < 0x80) : byte c < 0x80 :=
  ascii_forall (P := fun _ b => b < 0x80) (by decide) hc

theorem byte_inj {c d : Char} (hc : c.toNat < 0x80) (hd : d.toNat < 0x80) (h : byte c = byte d) :
    c = d := by
  have hback : ∀ {c : Char}, c.toNat < 0x80 → Char.ofNat (byte c).toNat = c :=
    ascii_forall (P := fun c b => Char.ofNat b.toNat = c) (by decide)
  rw [← hback hc, ← hback hd, h]

theorem length_ofChars_cons (c : Char) (cs : List Char) :
    (ofChars (c :: cs)).length = c.utf8Size + (ofChars cs).length := by
  rw [Utf8.ofChars_cons, List.length_append, String.length_utf8EncodeChar]

theorem encodeChar_byte {c : Char} (hc : c.toNat < 0x80) : String.utf8EncodeChar c = [byte c] :=
  Utf8.encodeChar_ascii hc

theorem ofChars_cons_byte {c : Char} (hc : c.toNat < 0x80) (cs : List Char) :
    ofChars (c :: cs) = byte c :: ofChars cs := by
  rw [Utf8.ofChars_cons, encodeChar_byte hc]
  rfl

theorem byte_mem_ofChars {c : Char} (hc : c.toNat < 0x80) {cs : List Char} (hmem : c ∈ cs) :
    byte c ∈ ofChars cs := by
  refine List.mem_flatMap.2 ⟨c, hmem, ?_⟩
  rw [encodeChar_byte hc]
  exact List.mem_singleton_self _

/-- A text begins with the byte of a character exactly if it begins with the character. -/
theorem head?_ofChars {c : Char} (hc : c.toNat < 0x80) (cs : List Char) :
    (ofChars cs).head? = some (byte c) ↔ cs.head? = some c := by
  cases cs with
  | nil => exact ⟨nofun, nofun⟩
  | cons d ds =>
    rw [Utf8.ofChars_cons, List.head?_cons]
    by_cases hd : d.toNat < 0x80
    · rw [encodeChar_byte hd]
      refine ⟨fun h => ?_, fun h => ?_⟩
      · rw [byte_inj hd hc (Option.some.inj h)]
      · rw [Option.some.inj h]
        rfl
    · obtain ⟨b, tail, hencode, hb, -⟩ := Utf8.encodeChar_wide (Nat.le_of_not_lt hd)
      rw [hencode]
      refine ⟨fun h => ?_, fun h => ?_⟩
      · rw [Option.some.inj h] at hb
        exact absurd (UInt8.lt_of_lt_of_le (ascii_byte hc) (by decide : (0x80 : UInt8) ≤ 0xC0))
          (UInt8.not_lt.2 hb)
      · rw [Option.some.inj h] at hd
        exact absurd hc hd

theorem isContinuation_iff {x : UInt8} : isContinuation x = true ↔ 0x80 ≤ x ∧ x < 0xC0 :=
  byte_forall (P := fun x => isContinuation x = true ↔ 0x80 ≤ x ∧ x < 0xC0) (by decide +kernel) x

/-- No text begins with a byte that continues a character. -/
theorem isContinuation_head?_ofChars {cs : List Char} :
    ∀ x ∈ (ofChars cs).head?, isContinuation x = false := by
  intro x hx
  rw [Bool.eq_false_iff, ne_eq, isContinuation_iff]
  rintro ⟨hlow, hhigh⟩
  cases cs with
  | nil => cases hx
  | cons c cs =>
    by_cases hc : c.toNat < 0x80
    · rw [ofChars_cons_byte hc] at hx
      cases hx
      exact UInt8.not_lt.2 hlow (ascii_byte hc)
    · obtain ⟨b, tail, hencode, hb, -⟩ := Utf8.encodeChar_wide (Nat.le_of_not_lt hc)
      rw [Utf8.ofChars_cons, hencode] at hx
      cases hx
      exact UInt8.not_lt.2 hb hhigh

/-- A byte of a character of several bytes begins no piece but an unexpected character. -/
theorem of_wide {b : UInt8} (h : 0x80 ≤ b) : isBlank b = false ∧ (b == quote) = false ∧
    isDigit b = false ∧ isWordStart b = false ∧ b ≠ byte '/' ∧ takesEqual b = false :=
  byte_forall (P := fun b => 0x80 ≤ b → isBlank b = false ∧ (b == quote) = false ∧
    isDigit b = false ∧ isWordStart b = false ∧ b ≠ byte '/' ∧ takesEqual b = false)
    (by decide +kernel) b h

/-! ### Runs -/

section

variable {test : UInt8 → Bool}

/-- Characters up to the first that does not pass a test, where the test does not tell the bytes of
    one character apart. -/
theorem exists_run_ofChars (htest : ∀ x y, 0x80 ≤ x → 0x80 ≤ y → test x = test y)
    (cs : List Char) : ∃ run after, cs = run ++ after ∧ (∀ x ∈ ofChars run, test x = true) ∧
      ∀ x ∈ (ofChars after).head?, test x = false := by
  induction cs with
  | nil => exact ⟨[], [], rfl, nofun, nofun⟩
  | cons c cs ih =>
    obtain ⟨b, tail, hencode, htail⟩ : ∃ b tail, String.utf8EncodeChar c = b :: tail ∧
        ∀ x ∈ tail, test x = test b := by
      by_cases hc : c.toNat < 0x80
      · exact ⟨byte c, [], encodeChar_byte hc, nofun⟩
      · obtain ⟨b, tail, hencode, hb, htail⟩ := Utf8.encodeChar_wide (Nat.le_of_not_lt hc)
        exact ⟨b, tail, hencode, fun x hx =>
          htest x b (htail x hx).1 (UInt8.le_trans (by decide) hb)⟩
    cases hb : test b with
    | false =>
      refine ⟨[], c :: cs, rfl, nofun, fun x hx => ?_⟩
      rw [Utf8.ofChars_cons, hencode] at hx
      cases hx
      exact hb
    | true =>
      obtain ⟨run, after, rfl, hrun, hafter⟩ := ih
      refine ⟨c :: run, after, rfl, ?_, hafter⟩
      rw [Utf8.ofChars_cons, hencode, List.forall_mem_append, List.forall_mem_cons]
      exact ⟨⟨hb, fun x hx => (htail x hx).trans hb⟩, hrun⟩

theorem whole_of_ascii (h : ∀ x, test x = true → x < 0x80) (x y : UInt8) (hx : 0x80 ≤ x)
    (hy : 0x80 ≤ y) : test x = test y := by
  rw [Bool.eq_false_iff.2 fun htest => UInt8.not_lt.2 hx (h x htest),
    Bool.eq_false_iff.2 fun htest => UInt8.not_lt.2 hy (h y htest)]

/-- A text up to the first place where a character is. -/
theorem exists_split_ofChars {c : Char} (hc : c.toNat < 0x80) (cs : List Char) :
    ∃ body after, cs = body ++ after ∧ c ∉ body ∧ byte c ∉ ofChars body ∧
      (∀ d ∈ after.head?, d = c) ∧
      runLength (· != byte c) (ofChars cs) = (ofChars body).length := by
  have hpasses : ∀ x : UInt8, 0x80 ≤ x → (x != byte c) = true := fun x hx => by
    rw [bne_iff_ne]
    rintro rfl
    exact UInt8.not_lt.2 hx (ascii_byte hc)
  have hwhole : ∀ x y : UInt8, 0x80 ≤ x → 0x80 ≤ y → (x != byte c) = (y != byte c) :=
    fun x y hx hy => by rw [hpasses x hx, hpasses y hy]
  obtain ⟨body, after, rfl, hbody, hafter⟩ := exists_run_ofChars hwhole cs
  have hnone : byte c ∉ ofChars body := fun hmem => by simpa using hbody _ hmem
  refine ⟨body, after, rfl, fun hmem => hnone (byte_mem_ofChars hc hmem), hnone, ?_, ?_⟩
  · cases after with
    | nil => exact nofun
    | cons d after =>
      rintro _ ⟨⟩
      obtain ⟨x, bs, hx⟩ : ∃ x bs, ofChars (d :: after) = x :: bs := by
        by_cases hd : d.toNat < 0x80
        · exact ⟨_, _, ofChars_cons_byte hd after⟩
        · obtain ⟨x, tail, hencode, -⟩ := Utf8.encodeChar_wide (Nat.le_of_not_lt hd)
          exact ⟨x, tail ++ ofChars after, by rw [Utf8.ofChars_cons, hencode, List.cons_append]⟩
      have hxc : x = byte c := by simpa using hafter x (by rw [hx]; rfl)
      have hhead : (ofChars (d :: after)).head? = some (byte c) := by rw [hx, hxc]; rfl
      exact Option.some.inj ((head?_ofChars hc _).1 hhead)
  · rw [Utf8.ofChars_append]
    exact runLength_run hbody hafter

end

/-! ## Characters between tokens -/

/-- A character that begins neither a string nor a comment and is not stray. -/
def Settled (c : Char) : Prop := c ≠ '"' ∧ c ≠ '/' ∧ isStray c = false

theorem settled_of_isWordPart {cs : List Char} (h : ∀ x ∈ ofChars cs, isWordPart x = true) :
    ∀ c ∈ cs, Settled c := by
  intro c hmem
  by_cases hc : c.toNat < 0x80
  · have htable : isWordPart (byte c) = true → c ≠ '"' ∧ c ≠ '/' ∧ isStray c = false :=
      ascii_forall (P := fun c b => isWordPart b = true → c ≠ '"' ∧ c ≠ '/' ∧ isStray c = false)
        (by decide +kernel) hc
    exact htable (h _ (byte_mem_ofChars hc hmem))
  · obtain ⟨b, tail, hencode, hb, -⟩ := Utf8.encodeChar_wide (Nat.le_of_not_lt hc)
    have hpart : isWordPart b = true := by
      refine h b (List.mem_flatMap.2 ⟨c, hmem, ?_⟩)
      rw [hencode]
      exact List.mem_cons_self
    exact absurd (ascii_of_isWordPart hpart) (UInt8.not_lt.2 (UInt8.le_trans (by decide) hb))

/-- One character outside of strings and comments. -/
theorem strays_cons {c : Char} {cs : List Char} (hquote : c ≠ '"')
    (hslashes : ¬ (c = '/' ∧ cs.head? = some '/')) (place : Nat) : strays place (c :: cs) =
      (if isStray c = true then [(place, c)] else []) ++ strays (place + c.utf8Size) cs := by
  rw [strays, outside, if_neg hquote, if_neg hslashes, List.filter_cons]
  dsimp only
  split <;> rfl

theorem strays_append {taken : List Char} (h : ∀ c ∈ taken, Settled c) (rest : List Char)
    (place : Nat) : strays place (taken ++ rest) = strays (place + (ofChars taken).length) rest := by
  induction taken generalizing place with
  | nil => rfl
  | cons c taken ih =>
    obtain ⟨⟨hquote, hslash, hstray⟩, htaken⟩ := List.forall_mem_cons.1 h
    rw [List.cons_append, strays_cons hquote fun hand => hslash hand.1, ih htaken,
      length_ofChars_cons, Nat.add_assoc, hstray]
    rfl

/-- A string, from behind its first quote to its second one or to the end of the text. -/
theorem outside_string {body : List Char} (h : '"' ∉ body) (place : Nat) :
    outside .string place body = [] ∧ ∀ rest, outside .string place (body ++ '"' :: rest) =
      outside .code (place + (ofChars (body ++ ['"'])).length) rest := by
  induction body generalizing place with
  | nil => exact ⟨rfl, fun rest => rfl⟩
  | cons c body ih =>
    rw [List.mem_cons, not_or] at h
    obtain ⟨hopen, hclosed⟩ := ih h.2 (place + c.utf8Size)
    have hc : c ≠ '"' := fun hc => h.1 hc.symm
    refine ⟨?_, fun rest => ?_⟩
    · rw [outside, if_neg hc, hopen]
    · rw [List.cons_append, outside, if_neg hc, hclosed, List.cons_append, length_ofChars_cons,
        Nat.add_assoc]

/-- A comment, from behind its first slash up to a newline or to the end of the text. -/
theorem outside_comment {body rest : List Char} (h : '\n' ∉ body)
    (hrest : ∀ c ∈ rest.head?, c = '\n') (place : Nat) : outside .comment place (body ++ rest) =
      outside .code (place + (ofChars body).length) rest := by
  induction body generalizing place with
  | nil =>
    cases rest with
    | nil => rfl
    | cons c rest =>
      obtain rfl := hrest c rfl
      rfl
  | cons c body ih =>
    rw [List.mem_cons, not_or] at h
    have hc : c ≠ '\n' := fun hc => h.1 hc.symm
    rw [List.cons_append, outside, if_neg hc, ih h.2, length_ofChars_cons, Nat.add_assoc]

/-! ## Pieces of a text -/

/-- What is reported as an unexpected character, and where. -/
def Piece.cited? (place : Nat) (p : Piece) : Option (Nat × Nat × String) :=
  match p.reading with
  | .problem (.unexpectedCharacter cited) => some (place, place + p.text.length, cited)
  | _ => none

/-- A character with its place, as it is to be reported. -/
def cite (p : Nat × Char) : Nat × Nat × String :=
  (p.1, p.1 + p.2.utf8Size, String.singleton p.2)

/-- The first piece of a text is some characters of it, and reports them if they are stray. -/
structure Front (cs taken rest : List Char) (reading : Reading) : Prop where
  shorter : rest.length < cs.length
  pieces : pieces (ofChars cs) = ⟨ofChars taken, reading⟩ :: pieces (ofChars rest)
  readable : reading ≠ .problem .unreadableString
  strays : ∀ place, (strays place cs).map cite =
    (Piece.cited? place ⟨ofChars taken, reading⟩).toList ++
      (strays (place + (ofChars taken).length) rest).map cite

section

variable {c : Char} {cs : List Char}

theorem reading_ascii (hc : c.toNat < 0x80) : (match Reading.ofText [byte c] with
    | .problem (.unexpectedCharacter cited) => isStray c && cited == String.singleton c
    | .problem _ => c == '"'
    | _ => !isStray c) = true :=
  ascii_forall (P := fun c b => (match Reading.ofText [b] with
    | .problem (.unexpectedCharacter cited) => isStray c && cited == String.singleton c
    | .problem _ => c == '"'
    | _ => !isStray c) = true) (by decide +kernel) hc

/-- A piece of one byte. -/
theorem front_single (hc : c.toNat < 0x80) (hquote : c ≠ '"')
    (hslashes : ¬ (c = '/' ∧ cs.head? = some '/')) (hextent : extent (byte c) (ofChars cs) = 0) :
    Front (c :: cs) [c] cs (.ofText [byte c]) := by
  have hchars : ofChars [c] = [byte c] := ofChars_cons_byte hc []
  have hsize : c.utf8Size = 1 := by
    rw [← String.length_utf8EncodeChar, encodeChar_byte hc]
    rfl
  have htable := reading_ascii hc
  refine ⟨Nat.lt_succ_self _, ?_, ?_, fun place => ?_⟩
  · rw [hchars, ofChars_cons_byte hc, pieces_cons, hextent]
    rfl
  · intro hreading
    rw [hreading] at htable
    exact hquote (beq_iff_eq.1 htable)
  · rw [strays_cons hquote hslashes, List.map_append, hchars, hsize, List.length_singleton]
    congr 1
    unfold Piece.cited?
    dsimp only
    split at htable
    · next cited hreading =>
      rw [Bool.and_eq_true, beq_iff_eq] at htable
      rw [hreading, if_pos htable.1, htable.2, List.map_singleton, cite, hsize]
      rfl
    · exact absurd (beq_iff_eq.1 htable) hquote
    · next hunexpected _ =>
      rw [if_neg (by simpa using htable)]
      split
      · next cited hreading => exact absurd hreading (hunexpected cited)
      · rfl

/-- A token that is made of characters which begin neither a string nor a comment. -/
theorem front_token (taken rest : List Char) {kind : Kind} (hc : c.toNat < 0x80)
    (hsettled : ∀ d ∈ c :: taken, Settled d)
    (hreading : Reading.ofText (byte c :: ofChars taken) = .token kind)
    (hextent : extent (byte c) (ofChars taken ++ ofChars rest) = (ofChars taken).length) :
    Front (c :: (taken ++ rest)) (c :: taken) rest (.token kind) := by
  refine ⟨?_, ?_, by simp, fun place => ?_⟩
  · rw [List.length_cons, List.length_append]
    exact Nat.lt_succ_of_le (Nat.le_add_left _ _)
  · rw [← List.cons_append, Utf8.ofChars_append, ofChars_cons_byte hc, List.cons_append,
      pieces_append hextent, hreading]
  · rw [← List.cons_append, strays_append hsettled]
    rfl

theorem front_number (hdigit : isDigit (byte c) = true) (hc : c.toNat < 0x80) :
    ∃ taken rest kind, Front (c :: cs) taken rest (.token kind) := by
  have hwhole : ∀ x y, 0x80 ≤ x → 0x80 ≤ y → isDigit x = isDigit y :=
    whole_of_ascii fun x => ascii_of_isDigit
  have hsettled : ∀ run : List Char, (∀ x ∈ ofChars run, isDigit x = true) →
      ∀ d ∈ c :: run, Settled d := by
    intro run hrun
    refine settled_of_isWordPart fun x hx => Bool.or_eq_true_iff.2 (.inr ?_)
    rw [ofChars_cons_byte hc] at hx
    rcases List.mem_cons.1 hx with rfl | hx
    · exact hdigit
    · exact hrun x hx
  obtain ⟨digits, after, rfl, hdigits, hafter⟩ := exists_run_ofChars hwhole cs
  have hextent := numberExtent_run hdigits hafter
  by_cases hfraction : (ofChars after).head? = some (byte '.') ∧
      ((ofChars after)[1]?.any isDigit) = true
  · obtain ⟨after, rfl⟩ := List.head?_eq_some_iff.1 ((head?_ofChars (by decide) _).1 hfraction.1)
    obtain ⟨decimals, rest, rfl, hdecimals, hrest⟩ := exists_run_ofChars hwhole after
    have hbehind : ofChars ('.' :: (decimals ++ rest)) =
        byte '.' :: (ofChars decimals ++ ofChars rest) := by
      rw [ofChars_cons_byte (by decide), Utf8.ofChars_append]
    have htaken : ofChars (digits ++ '.' :: decimals) =
        ofChars digits ++ byte '.' :: ofChars decimals := by
      rw [Utf8.ofChars_append, ofChars_cons_byte (by decide)]
    rw [if_pos hfraction, hbehind, List.tail_cons, runLength_run hdecimals hrest] at hextent
    have hsplit : digits ++ '.' :: (decimals ++ rest) = (digits ++ '.' :: decimals) ++ rest := by
      rw [List.append_assoc, List.cons_append]
    rw [hsplit]
    refine ⟨_, _, _, front_token _ _ hc ?_ (ofText_of_isDigit hdigit _) ?_⟩
    · obtain ⟨hfirst, hdigits⟩ := List.forall_mem_cons.1 (hsettled digits hdigits)
      obtain ⟨-, hdecimals⟩ := List.forall_mem_cons.1 (hsettled decimals hdecimals)
      rw [List.forall_mem_cons, List.forall_mem_append, List.forall_mem_cons]
      exact ⟨hfirst, hdigits, ⟨by decide, by decide, by decide⟩, hdecimals⟩
    · rw [extent_of_isDigit hdigit, htaken, List.append_assoc, List.cons_append, hextent,
        List.length_append, List.length_cons, Nat.add_comm 1]
  · rw [if_neg hfraction, Nat.add_zero] at hextent
    refine ⟨_, _, _, front_token _ _ hc (hsettled digits hdigits) (ofText_of_isDigit hdigit _) ?_⟩
    rw [extent_of_isDigit hdigit, hextent]

theorem front_word (hword : isWordStart (byte c) = true) (hc : c.toNat < 0x80) :
    ∃ taken rest kind, Front (c :: cs) taken rest (.token kind) := by
  obtain ⟨run, after, rfl, hrun, hafter⟩ :=
    exists_run_ofChars (whole_of_ascii fun x => ascii_of_isWordPart) cs
  refine ⟨_, _, _, front_token _ _ hc ?_ (ofText_of_isWordStart hword _) ?_⟩
  · refine settled_of_isWordPart ?_
    rw [ofChars_cons_byte hc]
    exact List.forall_mem_cons.2 ⟨isWordPart_of_isWordStart hword, hrun⟩
  · rw [extent_of_isWordStart hword, runLength_run hrun hafter]

/-- An operator that an equals sign extends. -/
theorem front_equal (htakes : takesEqual (byte c) = true) (hc : c.toNat < 0x80) :
    ∃ kind, Front (c :: '=' :: cs) [c, '='] cs (.token kind) := by
  have htable : takesEqual (byte c) = true → Settled c ∧
      (match Reading.ofText [byte c, byte '='] with | .token _ => true | _ => false) = true :=
    ascii_forall (P := fun c b => takesEqual b = true → (c ≠ '"' ∧ c ≠ '/' ∧ isStray c = false) ∧
      (match Reading.ofText [b, byte '='] with | .token _ => true | _ => false) = true)
      (by decide +kernel) hc
  obtain ⟨hsettled, hreading⟩ := htable htakes
  split at hreading
  · next kind hkind =>
    refine ⟨kind, front_token ['='] cs hc ?_ hkind ?_⟩
    · rw [List.forall_mem_cons, List.forall_mem_singleton]
      exact ⟨hsettled, by decide, by decide, by decide⟩
    · rw [extent_of_takesEqual htakes]
      rfl
  · cases hreading

theorem ofChars_cons_quote (cs : List Char) : ofChars ('"' :: cs) = quote :: ofChars cs :=
  ofChars_cons_byte (by decide) cs

theorem strays_cons_quote (place : Nat) (cs : List Char) : strays place ('"' :: cs) =
    (outside .string (place + 1) cs).filter fun p => isStray p.2 := rfl

/-- A string that is not closed goes to the end of the text. -/
theorem front_open {body : List Char} (hnone : '"' ∉ body) (hbytes : quote ∉ ofChars body)
    (hrun : runLength (· != quote) (ofChars body) = (ofChars body).length) :
    Front ('"' :: body) ('"' :: body) [] (.problem .unterminatedString) := by
  have hextent : extent quote (ofChars body) = (ofChars body).length := by
    show stringExtent _ = _
    rw [stringExtent, hrun, if_neg (Nat.lt_irrefl _)]
  have hreading : Reading.ofText (quote :: ofChars body) = .problem .unterminatedString := by
    show Reading.ofString (ofChars body) = _
    exact if_neg fun hlast => hbytes (List.mem_of_getLast? (beq_iff_eq.1 hlast))
  refine ⟨Nat.succ_pos _, ?_, by simp, fun place => ?_⟩
  · rw [ofChars_cons_quote, pieces_cons, hextent, List.take_length, List.drop_length, hreading]
    rfl
  · rw [strays_cons_quote, (outside_string hnone _).1]
    rfl

theorem front_closed {body rest : List Char} (hnone : '"' ∉ body)
    (hrun : runLength (· != quote) (ofChars (body ++ '"' :: rest)) = (ofChars body).length) :
    Front ('"' :: (body ++ '"' :: rest)) ('"' :: (body ++ ['"'])) rest
      (.token (.string (String.ofList body))) := by
  have hbody : ofChars (body ++ ['"']) = ofChars body ++ [quote] := by
    rw [Utf8.ofChars_append, ofChars_cons_quote]
    rfl
  have hsplit : body ++ '"' :: rest = (body ++ ['"']) ++ rest := by
    rw [List.append_assoc, List.singleton_append]
  rw [hsplit] at hrun ⊢
  rw [Utf8.ofChars_append] at hrun
  have hlength : (ofChars (body ++ ['"'])).length = (ofChars body).length + 1 := by
    rw [hbody, List.length_append, List.length_singleton]
  have hextent : extent quote (ofChars (body ++ ['"']) ++ ofChars rest) =
      (ofChars (body ++ ['"'])).length := by
    show stringExtent _ = _
    rw [stringExtent, hrun, hlength, List.length_append, hlength]
    exact if_pos (by omega)
  have hreading : Reading.ofText (quote :: ofChars (body ++ ['"'])) =
      .token (.string (String.ofList body)) := by
    show Reading.ofString _ = _
    rw [hbody, Reading.ofString_closed, Utf8.decode?_ofChars]
  refine ⟨?_, ?_, by simp, fun place => ?_⟩
  · rw [List.length_cons, List.length_append]
    omega
  · rw [ofChars_cons_quote, ofChars_cons_quote, Utf8.ofChars_append, pieces_append hextent, hreading]
  · rw [strays_cons_quote, ← hsplit, (outside_string hnone _).2, Nat.add_assoc, length_ofChars_cons]
    rfl

theorem front_string (cs : List Char) :
    ∃ taken rest reading, Front ('"' :: cs) taken rest reading := by
  obtain ⟨body, after, rfl, hnone, hbytes, hafter, hrun⟩ :=
    exists_split_ofChars (by decide : '"'.toNat < 0x80) cs
  cases after with
  | nil =>
    rw [List.append_nil] at hrun ⊢
    exact ⟨_, _, _, front_open hnone hbytes hrun⟩
  | cons c rest =>
    obtain rfl : c = '"' := hafter c rfl
    exact ⟨_, _, _, front_closed hnone hrun⟩

theorem front_comment (hslash : cs.head? = some '/') :
    ∃ taken rest, Front ('/' :: cs) taken rest .comment := by
  have hfirst : ∀ cs, ofChars ('/' :: cs) = byte '/' :: ofChars cs :=
    ofChars_cons_byte (by decide)
  obtain ⟨rest, rfl⟩ := List.head?_eq_some_iff.1 hslash
  obtain ⟨body, after, rfl, hnone, -, hafter, hrun⟩ :=
    exists_split_ofChars (by decide : '\n'.toNat < 0x80) rest
  have hextent : extent (byte '/') (ofChars ('/' :: body) ++ ofChars after) =
      (ofChars ('/' :: body)).length := by
    rw [hfirst, List.cons_append, ← Utf8.ofChars_append, extent_of_slashes rfl, runLength,
      List.takeWhile_cons_of_pos (by decide), List.length_cons, List.length_cons, ← hrun]
    rfl
  have hnone' : '\n' ∉ '/' :: body := by
    rw [List.mem_cons, not_or]
    exact ⟨by decide, hnone⟩
  refine ⟨'/' :: '/' :: body, after, ?_, ?_, by simp, fun place => ?_⟩
  · rw [List.length_cons, List.length_cons, List.length_append]
    omega
  · rw [← List.cons_append, hfirst, hfirst ('/' :: body), Utf8.ofChars_append, pieces_append hextent,
      hfirst]
    rfl
  · have hstrays : strays place ('/' :: '/' :: (body ++ after)) =
        (outside .comment (place + 1) ('/' :: body ++ after)).filter fun p => isStray p.2 := rfl
    rw [hstrays, outside_comment hnone' hafter, Nat.add_assoc, length_ofChars_cons '/' ('/' :: body)]
    rfl

/-- A character of several bytes is reported as a whole. -/
theorem front_wide (hc : 0x80 ≤ c.toNat) :
    Front (c :: cs) [c] cs (.problem (.unexpectedCharacter (String.singleton c))) := by
  obtain ⟨b, tail, hencode, hb, htail⟩ := Utf8.encodeChar_wide hc
  obtain ⟨hblank, hquote, hdigit, hword, hslash, hequal⟩ := of_wide (UInt8.le_trans (by decide) hb)
  have hchars : ofChars [c] = b :: tail := by
    rw [Utf8.ofChars_cons, hencode, Utf8.ofChars_nil, List.append_nil]
  have hextent : extent b (tail ++ ofChars cs) = tail.length := by
    rw [extent_eq_symbolExtent hquote hdigit hword fun hand => hslash hand.1, symbolExtent,
      if_neg (by simp [hequal]), if_pos (UInt8.le_trans (by decide) hb)]
    exact runLength_run (fun x hx => isContinuation_iff.2 (htail x hx)) isContinuation_head?_ofChars
  have hsymbol : Kind.symbols.lookup (String.singleton c) = none := by
    rw [List.lookup_eq_none_iff]
    intro symbol hmem
    rw [bne_iff_ne]
    intro heq
    refine Nat.not_lt.2 hc (ascii_of_mem_symbols _ hmem c ?_)
    rw [← heq, String.toList_singleton]
    exact List.mem_singleton_self c
  have hreading : Reading.ofText (b :: tail) =
      .problem (.unexpectedCharacter (String.singleton c)) := by
    have htext : Utf8.decodeLossy (b :: tail) = String.singleton c := by
      rw [← hchars, Utf8.decodeLossy_of_decode? (Utf8.decode?_ofChars [c]),
        String.singleton_eq_ofList]
    simp [Reading.ofText, hblank, hquote, hdigit, hword, hslash, htext, hsymbol]
  refine ⟨Nat.lt_succ_self _, ?_, by simp, fun place => ?_⟩
  · rw [Utf8.ofChars_cons, hencode, List.cons_append, pieces_append hextent, hchars, hreading]
  · have hquote' : c ≠ '"' := by rintro rfl; exact absurd hc (by decide)
    have hslash' : c ≠ '/' := by rintro rfl; exact absurd hc (by decide)
    rw [strays_cons hquote' fun hand => hslash' hand.1, if_pos (isStray_of_wide hc), List.map_append]
    have hlength : (ofChars [c]).length = c.utf8Size := length_ofChars_cons c []
    rw [hlength]
    show [(place, place + c.utf8Size, String.singleton c)] ++ _ =
      [(place, place + (ofChars [c]).length, String.singleton c)] ++ _
    rw [hlength]

/-- Each text that is not empty begins with a piece that is made of characters of it. -/
theorem exists_front (c : Char) (cs : List Char) :
    ∃ taken rest reading, Front (c :: cs) taken rest reading := by
  by_cases hc : c.toNat < 0x80
  · by_cases hquote : c = '"'
    · subst hquote
      exact front_string cs
    by_cases hslashes : c = '/' ∧ cs.head? = some '/'
    · obtain ⟨rfl, hslash⟩ := hslashes
      obtain ⟨taken, rest, hfront⟩ := front_comment hslash
      exact ⟨taken, rest, _, hfront⟩
    by_cases hdigit : isDigit (byte c) = true
    · obtain ⟨taken, rest, kind, hfront⟩ := @front_number c cs hdigit hc
      exact ⟨taken, rest, _, hfront⟩
    by_cases hword : isWordStart (byte c) = true
    · obtain ⟨taken, rest, kind, hfront⟩ := @front_word c cs hword hc
      exact ⟨taken, rest, _, hfront⟩
    by_cases hequal : takesEqual (byte c) = true ∧ cs.head? = some '='
    · obtain ⟨htakes, hhead⟩ := hequal
      obtain ⟨cs, rfl⟩ := List.head?_eq_some_iff.1 hhead
      obtain ⟨kind, hfront⟩ := @front_equal c cs htakes hc
      exact ⟨_, _, _, hfront⟩
    refine ⟨_, _, _, front_single hc hquote hslashes ?_⟩
    have hquote' : (byte c == quote) = false := by
      rw [beq_eq_false_iff_ne]
      exact fun heq => hquote (byte_inj hc (by decide) heq)
    have hslashes' : ¬ (byte c = byte '/' ∧ (ofChars cs).head? = some (byte '/')) := fun hand =>
      hslashes ⟨byte_inj hc (by decide) hand.1, (head?_ofChars (by decide) cs).1 hand.2⟩
    rw [extent_eq_symbolExtent hquote' (by simpa using hdigit) (by simpa using hword) hslashes',
      symbolExtent]
    split
    · next htakes =>
      refine if_neg fun hhead => hequal ⟨htakes, ?_⟩
      exact (head?_ofChars (by decide) cs).1 (beq_iff_eq.1 hhead)
    · exact if_neg (UInt8.not_le.2 (ascii_byte hc))
  · exact ⟨_, _, _, front_wide (Nat.le_of_not_lt hc)⟩

end

/-- What holds of the empty text and of each text that begins with a piece, if it holds of the rest
    behind the piece, holds of every text. -/
theorem front_induction {P : List Char → Prop} (hnil : P [])
    (hfront : ∀ cs taken rest reading, Front cs taken rest reading → P rest → P cs)
    (cs : List Char) : P cs := by
  cases cs with
  | nil => exact hnil
  | cons c cs =>
    obtain ⟨taken, rest, reading, h⟩ := exists_front c cs
    have hshorter := h.shorter
    exact hfront _ _ _ _ h (front_induction hnil hfront rest)
termination_by cs.length
decreasing_by exact hshorter

/-! ## What is reported -/

/-- The characters that a span reports as unexpected, with its place. -/
def Span.cited? (s : Span) : Option (Nat × Nat × String) :=
  match s.item? with
  | some (.error (.lexical _ (.unexpectedCharacter cited))) => some (s.first, s.last, cited)
  | _ => none

theorem Span.cited?_mk (first line : Nat) (p : Piece) :
    Span.cited? ⟨first, first + p.text.length, p.item? line⟩ = p.cited? first := by
  unfold Span.cited? Piece.cited? Piece.item?
  cases p.reading with
  | blank | comment | token _ => rfl
  | problem problem => cases problem <;> rfl

theorem cited_spansFrom (cs : List Char) : ∀ first line,
    (spansFrom first line (pieces (ofChars cs))).filterMap Span.cited? =
      (strays first cs).map cite := by
  induction cs using front_induction with
  | hnil => exact fun _ _ => rfl
  | hfront cs taken rest reading hfront ih =>
    intro first line
    rw [hfront.pieces, hfront.strays, spansFrom, List.filterMap_cons, Span.cited?_mk, ih]
    cases Piece.cited? first ⟨ofChars taken, reading⟩ <;> rfl

theorem readable_pieces (cs : List Char) :
    ∀ p ∈ pieces (ofChars cs), p.reading ≠ .problem .unreadableString := by
  induction cs using front_induction with
  | hnil => exact nofun
  | hfront cs taken rest reading hfront ih =>
    rw [hfront.pieces, List.forall_mem_cons]
    exact ⟨hfront.readable, ih⟩

/-- A character outside of strings and comments is one of the text, at its place. -/
theorem of_mem_outside {region : Region} {place place' : Nat} {cs : List Char} {c : Char}
    (h : (place', c) ∈ outside region place cs) :
    ∃ before after, cs = before ++ c :: after ∧ place' = place + (ofChars before).length := by
  induction cs generalizing region place with
  | nil => cases region <;> cases h
  | cons d cs ih =>
    have hrest : ∀ {region}, (place', c) ∈ outside region (place + d.utf8Size) cs →
        ∃ before after, d :: cs = before ++ c :: after ∧
          place' = place + (ofChars before).length := by
      intro region h
      obtain ⟨before, after, rfl, rfl⟩ := ih h
      exact ⟨d :: before, after, rfl, by rw [length_ofChars_cons, Nat.add_assoc]⟩
    have hhere : ∀ {region}, (place', c) ∈ (place, d) :: outside region (place + d.utf8Size) cs →
        ∃ before after, d :: cs = before ++ c :: after ∧
          place' = place + (ofChars before).length := by
      intro region h
      rcases List.mem_cons.1 h with heq | h
      · cases heq
        exact ⟨[], cs, rfl, rfl⟩
      · exact hrest h
    cases region with
    | code =>
      rw [outside] at h
      split at h
      · exact hrest h
      · split at h
        · exact hrest h
        · exact hhere h
    | string => exact hrest h
    | comment =>
      rw [outside] at h
      split at h
      · exact hhere h
      · exact hrest h

/-! ### Characters that begin tokens -/

theorem exists_lexeme_iff {b : UInt8} : (∃ kind rest, Lexeme kind (b :: rest)) ↔
    isWordStart b = true ∨ isDigit b = true ∨ b = quote ∨
      ∃ symbol ∈ Kind.symbols, (bytesOf symbol.1).head? = some b := by
  constructor
  · rintro ⟨kind, rest, h⟩
    generalize htext : b :: rest = text at h
    cases h with
    | symbol hmem => exact .inr (.inr (.inr ⟨_, hmem, by rw [← htext]; rfl⟩))
    | keyword hmem =>
      have hstart := (word_of_mem_keywords _ hmem).1
      rw [← htext] at hstart
      exact .inl hstart
    | name hfirst _ _ => cases htext; exact .inl hfirst
    | whole hdigit _ | fraction hdigit _ _ _ => cases htext; exact .inr (.inl hdigit)
    | string _ _ => cases htext; exact .inr (.inr (.inl rfl))
  · rintro (hword | hdigit | rfl | ⟨symbol, hmem, hhead⟩)
    · exact ⟨_, [], lexeme_of_word hword nofun⟩
    · exact ⟨_, [], .whole hdigit nofun⟩
    · exact ⟨_, _, @Lexeme.string [] "" nofun rfl⟩
    · obtain ⟨rest, hrest⟩ := List.head?_eq_some_iff.1 hhead
      refine ⟨symbol.2, rest, ?_⟩
      rw [← hrest]
      exact .symbol hmem

/-- The characters that begin tokens are those that lexemes begin with. -/
theorem beginsToken_iff (c : Char) : beginsToken c = true ↔
    ∃ kind rest, Lexeme kind (String.utf8EncodeChar c ++ rest) := by
  by_cases hc : c.toNat < 0x80
  · rw [encodeChar_byte hc]
    refine Iff.trans ?_ exists_lexeme_iff.symm
    exact ascii_forall (P := fun c b => beginsToken c = true ↔ isWordStart b = true ∨
      isDigit b = true ∨ b = quote ∨ ∃ symbol ∈ Kind.symbols, (bytesOf symbol.1).head? = some b)
      (by decide +kernel) hc
  · refine ⟨fun h => absurd (ascii_of_beginsToken h) hc, fun ⟨kind, rest, h⟩ => ?_⟩
    obtain ⟨b, tail, hencode, hb, -⟩ := Utf8.encodeChar_wide (Nat.le_of_not_lt hc)
    rw [hencode] at h
    have hwide : ¬ b < 0x80 := UInt8.not_lt.2 (UInt8.le_trans (by decide) hb)
    refine absurd ?_ hwide
    rcases exists_lexeme_iff.1 ⟨kind, _, h⟩ with hword | hdigit | rfl | ⟨symbol, hmem, hhead⟩
    · exact ascii_of_isWordPart (isWordPart_of_isWordStart hword)
    · exact ascii_of_isDigit hdigit
    · decide
    · obtain ⟨d, hd, rfl⟩ := List.mem_map.1 (List.mem_of_mem_head? hhead)
      exact ascii_byte (ascii_of_mem_symbols _ hmem d hd)

/-! ### The whole source -/

def Item.error? : Item → Option Error
  | .ok _ => none
  | .error e => some e

theorem errors_eq_filterMap (source : List UInt8) :
    errors source = (items source).filterMap Item.error? := rfl

theorem countP_errors (source : List UInt8) :
    (errors source).countP Error.isUnexpectedCharacter =
      ((spans source).filterMap Span.cited?).length := by
  have hspan : ∀ s : Span, (s.item?.toList.filterMap Item.error?).countP
      Error.isUnexpectedCharacter = s.cited?.toList.length := by
    rintro ⟨first, last, _ | e | t⟩
    · rfl
    · cases e with
      | lexical line problem => cases problem <;> rfl
      | _ => rfl
    · rfl
  obtain ⟨-, -, hitems⟩ := spans_spec source
  rw [errors_eq_filterMap, hitems, List.filterMap_append, List.countP_append]
  induction spans source with
  | nil => rfl
  | cons s ss ih =>
    have hcons : ∀ {α : Type} (f : Span → Option α),
        (s :: ss).filterMap f = (f s).toList ++ ss.filterMap f := by
      intro α f
      rw [List.filterMap_cons]
      cases f s <;> rfl
    rw [hcons, hcons, List.filterMap_append, List.countP_append, hspan, List.length_append,
      Nat.add_assoc, ih]

/-- **On text the scanner works by characters.** In a source that is a text, no string is unreadable.
    Each character that is reported as unexpected is one of the text, at the place of its span, and
    it is reported as it stands there. Those reported are the stray characters of the text, in order:
    the characters outside of strings and comments that no token begins with and that are no
    blanks. -/
theorem scans_by_characters {source : List UInt8} {text : String}
    (h : Utf8.decode? source = some text) :
    (∀ line, .error (.lexical line .unreadableString) ∉ items source) ∧
    (∀ s ∈ spans source, ∀ line cited,
      s.item? = some (.error (.lexical line (.unexpectedCharacter cited))) →
        ∃ before c after, text.toList = before ++ c :: after ∧
          s.first = (Utf8.encode (String.ofList before)).length ∧
          s.text source = String.utf8EncodeChar c ∧ cited = String.singleton c) ∧
    (spans source).filterMap Span.cited? = (strays 0 text.toList).map cite ∧
    (errors source).countP Error.isUnexpectedCharacter = (strays 0 text.toList).length ∧
    ∀ c, beginsToken c = true ↔ ∃ kind rest, Lexeme kind (String.utf8EncodeChar c ++ rest) := by
  have hsource : source = ofChars text.toList := by
    rw [← Utf8.encode_eq, Utf8.encode_of_decode? h]
  have hcited : (spans source).filterMap Span.cited? = (strays 0 text.toList).map cite := by
    rw [spans, hsource]
    exact cited_spansFrom _ 0 1
  refine ⟨fun line hmem => ?_, fun s hs line cited hitem => ?_, hcited, ?_, beginsToken_iff⟩
  · obtain ⟨p, hp, line', problem, hreading, heq⟩ := of_error_mem_itemsFrom hmem
    cases heq
    rw [hsource] at hp
    exact readable_pieces _ p hp hreading
  · have hmem : (s.first, s.last, cited) ∈ (spans source).filterMap Span.cited? :=
      List.mem_filterMap.2 ⟨s, hs, by rw [Span.cited?, hitem]⟩
    rw [hcited] at hmem
    obtain ⟨⟨place, c⟩, hstray, hcite⟩ := List.mem_map.1 hmem
    simp only [cite, Prod.mk.injEq] at hcite
    obtain ⟨rfl, hlast, rfl⟩ := hcite
    obtain ⟨before, after, htext, hplace⟩ := of_mem_outside (List.mem_filter.1 hstray).1
    rw [Nat.zero_add] at hplace
    refine ⟨before, c, after, htext, by rw [hplace, Utf8.encode_ofList], ?_, rfl⟩
    rw [Span.text, ← hlast, hplace, hsource, htext, Utf8.ofChars_append, Utf8.ofChars_cons,
      List.take_length_add_append, List.drop_left, ← String.length_utf8EncodeChar, List.take_left]
  · rw [countP_errors, hcited, List.length_map]

/-- Characters of several bytes in a comment, in a string, behind a name and in a string that is not
    closed. -/
def manyBytes : String := "// é\n\"é//\" né @ \"é@"

theorem scans_by_characters_manyBytes :
    Utf8.decode? (Utf8.encode manyBytes) = some manyBytes ∧
      (spans (Utf8.encode manyBytes)).filterMap Span.cited? = [(14, 16, "é"), (17, 18, "@")] ∧
      (errors (Utf8.encode manyBytes)).countP Error.isUnexpectedCharacter = 2 := by
  have htext := Utf8.decode?_encode manyBytes
  obtain ⟨-, -, hcited, hcount, -⟩ := scans_by_characters htext
  have hstrays : strays 0 manyBytes.toList = [(14, 'é'), (17, '@')] := by decide +kernel
  rw [hstrays] at hcited hcount
  exact ⟨htext, hcited, hcount⟩

end Lexer

end Lox
