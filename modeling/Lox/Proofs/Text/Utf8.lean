import Lox.Text.Utf8
import Mathlib.Tactic.SplitIfs

set_option autoImplicit false

/-! # Reading and writing UTF-8

What is read strictly from bytes is written as these bytes again (`encode_of_decode?`), and what is
written is read as it was (`decode?_encode`). A lenient reading in which nothing was replaced is a
strict one (`decode?_of_decodeLossy`). -/

namespace Lox.Utf8

/-! ## One character -/

theorem follow_nil {code n : Nat} {bs : List UInt8} {result : Nat}
    (h : follow code [] bs = (some result, n)) : result = code ∧ n = 0 := by
  cases h
  exact ⟨rfl, rfl⟩

/-- A byte that was promised is there and lies in its range. -/
theorem follow_cons {code n : Nat} {range : UInt8 × UInt8} {ranges : List (UInt8 × UInt8)}
    {bs : List UInt8} {result : Nat} (h : follow code (range :: ranges) bs = (some result, n)) :
    ∃ b rest m, bs = b :: rest ∧ range.1.toNat ≤ b.toNat ∧ b.toNat ≤ range.2.toNat ∧
      follow (code * 64 + b.toNat % 64) ranges rest = (some result, m) ∧ n = m + 1 := by
  cases bs with
  | nil => cases h
  | cons b rest =>
    rw [follow] at h
    split at h
    · next hrange =>
      simp only [Prod.mk.injEq] at h
      exact ⟨b, rest, _, rfl, hrange.1, hrange.2, Prod.ext h.1 rfl, h.2.symm⟩
    · cases h

/-- What comes behind a sequence does not matter. -/
theorem follow_append {ranges : List (UInt8 × UInt8)} {code result n : Nat} {bs : List UInt8}
    (more : List UInt8) (h : follow code ranges bs = (some result, n)) :
    follow code ranges (bs ++ more) = (some result, n) ∧ n ≤ bs.length := by
  induction ranges generalizing code bs n with
  | nil =>
    cases h
    exact ⟨rfl, Nat.zero_le _⟩
  | cons range ranges ih =>
    cases bs with
    | nil => cases h
    | cons b bs =>
      rw [follow] at h
      split at h
      · next hrange =>
        simp only [Prod.mk.injEq] at h
        obtain ⟨hresult, rfl⟩ := h
        obtain ⟨hmore, hle⟩ := ih (Prod.ext hresult rfl)
        rw [List.cons_append, follow, if_pos hrange, hmore]
        exact ⟨rfl, Nat.succ_le_succ hle⟩
      · cases h

theorem toNat_val_ofNat {n : Nat} (h : n.isValidChar) : (Char.ofNat n).val.toNat = n := by
  rw [Char.ofNat, dif_pos h]
  rfl

theorem encodeChar_ascii {c : Char} (h : c.toNat < 0x80) :
    String.utf8EncodeChar c = [UInt8.ofNat c.toNat] :=
  if_pos (Nat.le_of_lt_succ h)

theorem encodeChar_two {n : Nat} (hlow : 0x80 ≤ n) (hhigh : n < 0x800) :
    String.utf8EncodeChar (Char.ofNat n) =
      [UInt8.ofNat (n / 64 + 0xC0), UInt8.ofNat (n % 64 + 0x80)] := by
  have hval : (Char.ofNat n).val.toNat = n := toNat_val_ofNat (.inl (by omega))
  simp only [String.utf8EncodeChar, hval]
  rw [if_neg (by omega), if_pos (by omega), Nat.mod_eq_of_lt (by omega : n / 64 < 0x20)]

theorem encodeChar_three {n : Nat} (hvalid : n.isValidChar) (hlow : 0x800 ≤ n) (hhigh : n < 0x10000) :
    String.utf8EncodeChar (Char.ofNat n) = [UInt8.ofNat (n / 4096 + 0xE0),
      UInt8.ofNat (n / 64 % 64 + 0x80), UInt8.ofNat (n % 64 + 0x80)] := by
  simp only [String.utf8EncodeChar, toNat_val_ofNat hvalid]
  rw [if_neg (by omega), if_neg (by omega), if_pos (by omega),
    Nat.mod_eq_of_lt (by omega : n / 4096 < 0x10)]

theorem encodeChar_four {n : Nat} (hlow : 0x10000 ≤ n) (hhigh : n < 0x110000) :
    String.utf8EncodeChar (Char.ofNat n) = [UInt8.ofNat (n / 262144 + 0xF0),
      UInt8.ofNat (n / 4096 % 64 + 0x80), UInt8.ofNat (n / 64 % 64 + 0x80),
      UInt8.ofNat (n % 64 + 0x80)] := by
  have hval : (Char.ofNat n).val.toNat = n := toNat_val_ofNat (.inr ⟨by omega, hhigh⟩)
  simp only [String.utf8EncodeChar, hval]
  rw [if_neg (by omega), if_neg (by omega), if_neg (by omega),
    Nat.mod_eq_of_lt (by omega : n / 262144 < 0x08)]

theorem ofNat_eq {n : Nat} {b : UInt8} (h : n = b.toNat) : UInt8.ofNat n = b := by
  rw [h, UInt8.ofNat_toNat]

/-- What the first byte of a sequence promises, by the length of the sequence. -/
theorem Lead.of_ofByte? {b : UInt8} {lead : Lead} (h : ofByte? b = some lead) :
    (b.toNat < 0x80 ∧ lead = ⟨b.toNat, []⟩) ∨
    (0xC2 ≤ b.toNat ∧ b.toNat < 0xE0 ∧ lead = ⟨b.toNat - 0xC0, [continuing]⟩) ∨
    (0xE0 ≤ b.toNat ∧ b.toNat < 0xF0 ∧ ∃ low high, lead = ⟨b.toNat - 0xE0, [(low, high), continuing]⟩ ∧
      0x80 ≤ low.toNat ∧ high.toNat ≤ 0xBF ∧ (b.toNat = 0xE0 → 0xA0 ≤ low.toNat) ∧
      (b.toNat = 0xED → high.toNat ≤ 0x9F)) ∨
    (0xF0 ≤ b.toNat ∧ b.toNat ≤ 0xF4 ∧ ∃ low high,
      lead = ⟨b.toNat - 0xF0, [(low, high), continuing, continuing]⟩ ∧
      0x80 ≤ low.toNat ∧ high.toNat ≤ 0xBF ∧ (b.toNat = 0xF0 → 0x90 ≤ low.toNat) ∧
      (b.toNat = 0xF4 → high.toNat ≤ 0x8F)) := by
  simp only [ofByte?, UInt8.lt_iff_toNat_lt, ← UInt8.toNat_inj, UInt8.reduceToNat] at h
  split_ifs at h
  all_goals obtain rfl := Option.some.inj h
  · exact .inl ⟨‹_›, rfl⟩
  · exact .inr (.inl ⟨by omega, by omega, rfl⟩)
  · exact .inr (.inr (.inl ⟨by omega, by omega, 0xA0, 0xBF, by rw [‹b.toNat = _›], by decide, by decide,
      fun _ => by decide, by omega⟩))
  · exact .inr (.inr (.inl ⟨by omega, by omega, 0x80, 0x9F, by rw [‹b.toNat = _›], by decide, by decide,
      by omega, fun _ => by decide⟩))
  · exact .inr (.inr (.inl ⟨by omega, by omega, 0x80, 0xBF, rfl, by decide, by decide, by omega,
      by omega⟩))
  · exact .inr (.inr (.inr ⟨by omega, by omega, 0x90, 0xBF, by rw [‹b.toNat = _›], by decide, by decide,
      fun _ => by decide, by omega⟩))
  · exact .inr (.inr (.inr ⟨by omega, by omega, 0x80, 0xBF, rfl, by decide, by decide, by omega,
      by omega⟩))
  · exact .inr (.inr (.inr ⟨by omega, by omega, 0x80, 0x8F, by rw [‹b.toNat = _›], by decide, by decide,
      by omega, fun _ => by decide⟩))

theorem of_unit {b : UInt8} {bs : List UInt8} {c : Char} {n : Nat} (h : unit b bs = (some c, n)) :
    ∃ lead code, Lead.ofByte? b = some lead ∧ follow lead.bits lead.ranges bs = (some code, n) ∧
      c = Char.ofNat code := by
  unfold unit at h
  cases hlead : Lead.ofByte? b with
  | none =>
    rw [hlead] at h
    cases h
  | some lead =>
    rw [hlead] at h
    simp only [Prod.mk.injEq, Option.map_eq_some_iff] at h
    obtain ⟨⟨code, hcode, rfl⟩, rfl⟩ := h
    exact ⟨lead, code, rfl, Prod.ext hcode rfl, rfl⟩

/-- A character is written as the bytes it was read from. -/
theorem encodeChar_of_unit {b : UInt8} {bs : List UInt8} {c : Char} {n : Nat}
    (h : unit b bs = (some c, n)) : String.utf8EncodeChar c = b :: bs.take n := by
  obtain ⟨lead, code, hlead, hfollow, rfl⟩ := of_unit h
  have hlow : continuing.1.toNat = 0x80 := rfl
  have hhigh : continuing.2.toNat = 0xBF := rfl
  rcases Lead.of_ofByte? hlead with ⟨hb, rfl⟩ | ⟨hb, hb', rfl⟩ |
    ⟨hb, hb', low, high, rfl, hrange⟩ | ⟨hb, hb', low, high, rfl, hrange⟩
  all_goals dsimp only at hfollow
  · obtain ⟨rfl, rfl⟩ := follow_nil hfollow
    rw [List.take_zero, String.utf8EncodeChar, toNat_val_ofNat (.inl (by omega)),
      if_pos (by omega), UInt8.ofNat_toNat]
  · obtain ⟨b₁, rest, _, rfl, h₁, h₁', hfollow₁, rfl⟩ := follow_cons hfollow
    obtain ⟨rfl, rfl⟩ := follow_nil hfollow₁
    rw [encodeChar_two (by omega) (by omega), ofNat_eq (b := b) (by omega),
      ofNat_eq (b := b₁) (by omega)]
    rfl
  · obtain ⟨b₁, _, _, rfl, h₁, h₁', hfollow₁, rfl⟩ := follow_cons hfollow
    obtain ⟨b₂, rest, _, rfl, h₂, h₂', hfollow₂, rfl⟩ := follow_cons hfollow₁
    obtain ⟨rfl, rfl⟩ := follow_nil hfollow₂
    simp only at h₁ h₁'
    have hvalid : Nat.isValidChar (((b.toNat - 0xE0) * 64 + b₁.toNat % 64) * 64 + b₂.toNat % 64) := by
      unfold Nat.isValidChar
      omega
    rw [encodeChar_three hvalid (by omega) (by omega), ofNat_eq (b := b) (by omega),
      ofNat_eq (b := b₁) (by omega), ofNat_eq (b := b₂) (by omega)]
    rfl
  · obtain ⟨b₁, _, _, rfl, h₁, h₁', hfollow₁, rfl⟩ := follow_cons hfollow
    obtain ⟨b₂, _, _, rfl, h₂, h₂', hfollow₂, rfl⟩ := follow_cons hfollow₁
    obtain ⟨b₃, rest, _, rfl, h₃, h₃', hfollow₃, rfl⟩ := follow_cons hfollow₂
    obtain ⟨rfl, rfl⟩ := follow_nil hfollow₃
    simp only at h₁ h₁'
    rw [encodeChar_four (by omega) (by omega), ofNat_eq (b := b) (by omega),
      ofNat_eq (b := b₁) (by omega), ofNat_eq (b := b₂) (by omega), ofNat_eq (b := b₃) (by omega)]
    rfl

/-- The last bits of a number are read from a byte that continues a sequence. -/
theorem follow_ofNat {code m n result : Nat} {low high : UInt8} {ranges : List (UInt8 × UInt8)}
    {rest : List UInt8} (hlow : low.toNat ≤ n % 64 + 0x80) (hhigh : n % 64 + 0x80 ≤ high.toNat)
    (h : follow (code * 64 + n % 64) ranges rest = (some result, m)) :
    follow code ((low, high) :: ranges) (UInt8.ofNat (n % 64 + 0x80) :: rest) =
      (some result, m + 1) := by
  have hbyte : (UInt8.ofNat (n % 64 + 0x80)).toNat = n % 64 + 0x80 :=
    UInt8.toNat_ofNat_of_lt' (show n % 64 + 0x80 < 256 by omega)
  have hle : low ≤ UInt8.ofNat (n % 64 + 0x80) := by
    rwa [UInt8.le_iff_toNat_le, hbyte]
  have hge : UInt8.ofNat (n % 64 + 0x80) ≤ high := by
    rwa [UInt8.le_iff_toNat_le, hbyte]
  have hbits : (n % 64 + 0x80) % 64 = n % 64 := by omega
  rw [follow, if_pos ⟨hle, hge⟩, hbyte, hbits, h]

theorem follow_continuing {code m n result : Nat} {ranges : List (UInt8 × UInt8)}
    {rest : List UInt8} (h : follow (code * 64 + n % 64) ranges rest = (some result, m)) :
    follow code (continuing :: ranges) (UInt8.ofNat (n % 64 + 0x80) :: rest) =
      (some result, m + 1) :=
  follow_ofNat (Nat.le_add_left _ _) (Nat.le_of_lt_succ (Nat.add_lt_add_right
    (Nat.mod_lt n (by decide)) 0x80)) h

theorem Lead.ofByte?_two {b : UInt8} (h : 0xC2 ≤ b.toNat) (h' : b.toNat < 0xE0) :
    ofByte? b = some ⟨b.toNat - 0xC0, [continuing]⟩ := by
  simp only [ofByte?, UInt8.lt_iff_toNat_lt, UInt8.reduceToNat]
  rw [if_neg (by omega), if_neg (by omega), if_pos h']

theorem Lead.ofByte?_three {b : UInt8} (h : 0xE0 ≤ b.toNat) (h' : b.toNat < 0xF0) :
    ∃ low high, ofByte? b = some ⟨b.toNat - 0xE0, [(low, high), continuing]⟩ ∧
      low.toNat ≤ (if b.toNat = 0xE0 then 0xA0 else 0x80) ∧
      (if b.toNat = 0xED then 0x9F else 0xBF) ≤ high.toNat := by
  simp only [ofByte?, UInt8.lt_iff_toNat_lt, ← UInt8.toNat_inj, UInt8.reduceToNat]
  rw [if_neg (by omega), if_neg (by omega), if_neg (by omega)]
  by_cases hE0 : b.toNat = 0xE0
  · rw [if_pos hE0, if_pos hE0, if_neg (by omega)]
    exact ⟨0xA0, 0xBF, by rw [hE0], by decide, by decide⟩
  rw [if_neg hE0, if_neg hE0]
  by_cases hED : b.toNat = 0xED
  · rw [if_pos hED, if_pos hED]
    exact ⟨0x80, 0x9F, by rw [hED], by decide, by decide⟩
  rw [if_neg hED, if_pos h', if_neg hED]
  exact ⟨0x80, 0xBF, rfl, by decide, by decide⟩

theorem Lead.ofByte?_four {b : UInt8} (h : 0xF0 ≤ b.toNat) (h' : b.toNat ≤ 0xF4) :
    ∃ low high, ofByte? b = some ⟨b.toNat - 0xF0, [(low, high), continuing, continuing]⟩ ∧
      low.toNat ≤ (if b.toNat = 0xF0 then 0x90 else 0x80) ∧
      (if b.toNat = 0xF4 then 0x8F else 0xBF) ≤ high.toNat := by
  simp only [ofByte?, UInt8.lt_iff_toNat_lt, ← UInt8.toNat_inj, UInt8.reduceToNat]
  rw [if_neg (by omega), if_neg (by omega), if_neg (by omega), if_neg (by omega), if_neg (by omega),
    if_neg (by omega)]
  by_cases hF0 : b.toNat = 0xF0
  · rw [if_pos hF0, if_pos hF0, if_neg (by omega)]
    exact ⟨0x90, 0xBF, by rw [hF0], by decide, by decide⟩
  rw [if_neg hF0, if_neg hF0]
  by_cases hF4 : b.toNat = 0xF4
  · rw [if_neg (by omega), if_pos hF4, if_pos hF4]
    exact ⟨0x80, 0x8F, by rw [hF4], by decide, by decide⟩
  rw [if_pos (by omega), if_neg hF4]
  exact ⟨0x80, 0xBF, rfl, by decide, by decide⟩

theorem unit_of_lead {b : UInt8} {lead : Lead} {bs : List UInt8} {c : Char} {n : Nat}
    (hlead : Lead.ofByte? b = some lead)
    (hfollow : follow lead.bits lead.ranges bs = (some c.toNat, n)) : unit b bs = (some c, n) := by
  rw [unit, hlead]
  simp only [hfollow, Option.map_some, Char.ofNat_toNat]

/-- What was written for a character is read as the character. -/
theorem unit_encodeChar (c : Char) (rest : List UInt8) : ∃ b tail,
    String.utf8EncodeChar c = b :: tail ∧ unit b (tail ++ rest) = (some c, tail.length) := by
  have hvalid : c.toNat.isValidChar := c.valid
  have hbyte : ∀ {n : Nat}, n < 256 → (UInt8.ofNat n).toNat = n := UInt8.toNat_ofNat_of_lt'
  have hread : ∀ {code : Nat}, code = c.toNat → follow code [] rest = (some c.toNat, 0) := by
    rintro _ rfl
    rfl
  by_cases h1 : c.toNat < 0x80
  · have hb : (UInt8.ofNat c.toNat).toNat = c.toNat := hbyte (by omega)
    have hlead : Lead.ofByte? (UInt8.ofNat c.toNat) = some ⟨(UInt8.ofNat c.toNat).toNat, []⟩ :=
      if_pos (UInt8.lt_iff_toNat_lt.2 (show _ < 0x80 from hb.symm ▸ h1))
    exact ⟨UInt8.ofNat c.toNat, [], encodeChar_ascii h1, unit_of_lead hlead (hread hb)⟩
  by_cases h2 : c.toNat < 0x800
  · have hencode := encodeChar_two (Nat.le_of_not_lt h1) h2
    rw [Char.ofNat_toNat] at hencode
    have hb : (UInt8.ofNat (c.toNat / 64 + 0xC0)).toNat = c.toNat / 64 + 0xC0 := hbyte (by omega)
    refine ⟨_, _, hencode, unit_of_lead (Lead.ofByte?_two (by omega) (by omega)) ?_⟩
    exact follow_continuing (hread (by dsimp only; omega))
  by_cases h3 : c.toNat < 0x10000
  · have hencode := encodeChar_three hvalid (Nat.le_of_not_lt h2) h3
    rw [Char.ofNat_toNat] at hencode
    have hb : (UInt8.ofNat (c.toNat / 4096 + 0xE0)).toNat = c.toNat / 4096 + 0xE0 :=
      hbyte (by omega)
    obtain ⟨low, high, hlead, hlow, hhigh⟩ :=
      Lead.ofByte?_three (b := UInt8.ofNat (c.toNat / 4096 + 0xE0)) (by omega) (by omega)
    refine ⟨_, _, hencode, unit_of_lead hlead ?_⟩
    -- the first byte tells which second bytes would be overlong or surrogates
    unfold Nat.isValidChar at hvalid
    exact follow_ofNat (by split at hlow <;> omega) (by split at hhigh <;> omega)
      (follow_continuing (hread (by dsimp only; omega)))
  · have hlast : c.toNat < 0x110000 := by
      unfold Nat.isValidChar at hvalid
      omega
    have hencode := encodeChar_four (Nat.le_of_not_lt h3) hlast
    rw [Char.ofNat_toNat] at hencode
    have hb : (UInt8.ofNat (c.toNat / 262144 + 0xF0)).toNat = c.toNat / 262144 + 0xF0 :=
      hbyte (by omega)
    obtain ⟨low, high, hlead, hlow, hhigh⟩ :=
      Lead.ofByte?_four (b := UInt8.ofNat (c.toNat / 262144 + 0xF0)) (by omega) (by omega)
    refine ⟨_, _, hencode, unit_of_lead hlead ?_⟩
    exact follow_ofNat (by split at hlow <;> omega) (by split at hhigh <;> omega)
      (follow_continuing (follow_continuing (hread (by dsimp only; omega))))

theorem continues_ofNat (n : Nat) :
    0x80 ≤ UInt8.ofNat (n % 64 + 0x80) ∧ UInt8.ofNat (n % 64 + 0x80) < 0xC0 := by
  have hbyte : (UInt8.ofNat (n % 64 + 0x80)).toNat = n % 64 + 0x80 :=
    UInt8.toNat_ofNat_of_lt' (show n % 64 + 0x80 < 256 by omega)
  rw [UInt8.le_iff_toNat_le, UInt8.lt_iff_toNat_lt, hbyte]
  exact ⟨Nat.le_add_left _ _, show n % 64 + 0x80 < 0xC0 by omega⟩

/-- In a character of several bytes the first of them differs from the others. -/
theorem encodeChar_wide {c : Char} (h : 0x80 ≤ c.toNat) : ∃ b tail,
    String.utf8EncodeChar c = b :: tail ∧ 0xC0 ≤ b ∧ ∀ x ∈ tail, 0x80 ≤ x ∧ x < 0xC0 := by
  have hvalid : c.toNat.isValidChar := c.valid
  have hlead : ∀ {n : Nat}, n < 256 → 0xC0 ≤ n → 0xC0 ≤ UInt8.ofNat n := fun hlt hle => by
    rw [UInt8.le_iff_toNat_le, UInt8.toNat_ofNat_of_lt' hlt]
    exact hle
  by_cases h2 : c.toNat < 0x800
  · have hencode := encodeChar_two h h2
    rw [Char.ofNat_toNat] at hencode
    refine ⟨_, _, hencode, hlead (by omega) (by omega), ?_⟩
    simp only [List.forall_mem_cons]
    exact ⟨continues_ofNat _, nofun⟩
  by_cases h3 : c.toNat < 0x10000
  · have hencode := encodeChar_three hvalid (Nat.le_of_not_lt h2) h3
    rw [Char.ofNat_toNat] at hencode
    refine ⟨_, _, hencode, hlead (by omega) (by omega), ?_⟩
    simp only [List.forall_mem_cons]
    exact ⟨continues_ofNat _, continues_ofNat _, nofun⟩
  · have hlast : c.toNat < 0x110000 := by
      unfold Nat.isValidChar at hvalid
      omega
    have hencode := encodeChar_four (Nat.le_of_not_lt h3) hlast
    rw [Char.ofNat_toNat] at hencode
    refine ⟨_, _, hencode, hlead (by omega) (by omega), ?_⟩
    simp only [List.forall_mem_cons]
    exact ⟨continues_ofNat _, continues_ofNat _, continues_ofNat _, nofun⟩

/-! ## A whole text -/

theorem units_cons (b : UInt8) (bs : List UInt8) :
    units (b :: bs) = (unit b bs).1 :: units (bs.drop (unit b bs).2) := by
  rw [units, unitsFrom, unitsFrom_eq_units_drop]

/-- The bytes of an array, by place or all at once. -/
theorem toList_byteArray (bytes : ByteArray) : bytes.toList = bytes.data.toList := by
  have hloop : ∀ n i (r : List UInt8), bytes.size - i = n →
      ByteArray.toList.loop bytes i r = r.reverse ++ bytes.data.toList.drop i := by
    intro n
    induction n with
    | zero =>
      intro i r hn
      have hle : bytes.size ≤ i := Nat.le_of_sub_eq_zero hn
      rw [ByteArray.toList.loop, if_neg (Nat.not_lt.2 hle), List.drop_eq_nil_of_le hle,
        List.append_nil]
    | succ n ih =>
      intro i r hn
      have hlt : i < bytes.data.toList.length := by
        show i < bytes.size
        omega
      have hget : bytes.get! i = bytes.data.toList[i] := by
        rw [ByteArray.get!, Array.getElem_toList]
        exact getElem!_pos bytes.data i hlt
      rw [ByteArray.toList.loop, if_pos (show i < bytes.size from hlt), ih _ _ (by omega), hget,
        List.drop_eq_getElem_cons hlt]
      simp
  exact hloop _ 0 [] rfl

/-- The bytes of characters that follow each other. -/
def ofChars (cs : List Char) : List UInt8 := cs.flatMap String.utf8EncodeChar

@[simp] theorem ofChars_nil : ofChars [] = [] := rfl

@[simp] theorem ofChars_cons (c : Char) (cs : List Char) :
    ofChars (c :: cs) = String.utf8EncodeChar c ++ ofChars cs := rfl

@[simp] theorem ofChars_append (cs ds : List Char) :
    ofChars (cs ++ ds) = ofChars cs ++ ofChars ds :=
  List.flatMap_append

theorem encode_ofList (cs : List Char) : encode (String.ofList cs) = ofChars cs := by
  rw [encode, toList_byteArray]
  exact List.toList_data_toByteArray

theorem encode_eq (s : String) : encode s = ofChars s.toList := by
  rw [← encode_ofList, String.ofList_toList]

theorem mapM_id_eq_some {units : List (Option Char)} {cs : List Char} :
    units.mapM id = some cs ↔ units = cs.map some := by
  induction units generalizing cs with
  | nil => cases cs <;> simp
  | cons unit units ih =>
    cases unit with
    | none => cases cs <;> simp
    | some c =>
      rw [List.mapM_cons]
      cases cs with
      | nil => simp [Option.bind_eq_some_iff]
      | cons c' cs =>
        simp only [id_eq, Option.bind_eq_bind, Option.bind_some, Option.bind_eq_some_iff, ih,
          List.map_cons, List.cons.injEq, Option.some.injEq, Option.pure_def]
        constructor
        · rintro ⟨_, rfl, rfl, rfl⟩
          exact ⟨rfl, rfl⟩
        · rintro ⟨rfl, rfl⟩
          exact ⟨cs, rfl, rfl, rfl⟩

theorem decode?_eq_some_iff {bs : List UInt8} {s : String} :
    decode? bs = some s ↔ units bs = s.toList.map some := by
  rw [decode?, Option.map_eq_some_iff]
  constructor
  · rintro ⟨cs, hcs, rfl⟩
    rw [mapM_id_eq_some.1 hcs, String.toList_ofList]
  · exact fun h => ⟨s.toList, mapM_id_eq_some.2 h, String.ofList_toList⟩

/-- The first character of a well-formed text, with its bytes. -/
theorem exists_of_units {bs : List UInt8} {c : Char} {cs : List Char}
    (h : units bs = (c :: cs).map some) : ∃ b tail rest, bs = b :: (tail ++ rest) ∧
      unit b (tail ++ rest) = (some c, tail.length) ∧ units rest = cs.map some := by
  cases bs with
  | nil => cases h
  | cons b bs =>
    rw [units_cons] at h
    obtain ⟨hc, hrest⟩ := List.cons.inj h
    have hunit : unit b bs = (some c, (unit b bs).2) := Prod.ext hc rfl
    have hlength : (bs.take (unit b bs).2).length = (unit b bs).2 := by
      obtain ⟨lead, code, -, hfollow, -⟩ := of_unit hunit
      rw [List.length_take]
      exact Nat.min_eq_left (follow_append [] hfollow).2
    refine ⟨b, bs.take (unit b bs).2, bs.drop (unit b bs).2, ?_, ?_, hrest⟩
    · rw [List.take_append_drop]
    · rw [List.take_append_drop, hlength]
      exact hunit

theorem eq_nil_of_units {bs : List UInt8} (h : units bs = []) : bs = [] := by
  cases bs with
  | nil => rfl
  | cons b bs =>
    rw [units_cons] at h
    cases h

/-- **Reading and writing.** What is read strictly from bytes is written as these bytes. -/
theorem encode_of_decode? {bs : List UInt8} {s : String} (h : decode? bs = some s) :
    encode s = bs := by
  have hall : ∀ (cs : List Char) (bs : List UInt8), units bs = cs.map some →
      ofChars cs = bs := by
    intro cs
    induction cs with
    | nil => exact fun bs hcs => (eq_nil_of_units hcs).symm
    | cons c cs ih =>
      intro bs hcs
      obtain ⟨b, tail, rest, rfl, hunit, hrest⟩ := exists_of_units hcs
      rw [ofChars_cons, encodeChar_of_unit hunit, ih rest hrest, List.take_left]
      rfl
  rw [encode_eq]
  exact hall s.toList bs (decode?_eq_some_iff.1 h)

/-- **Writing and reading.** What is written for a text is read strictly as the text. -/
theorem decode?_encode (s : String) : decode? (encode s) = some s := by
  have hall : ∀ cs : List Char, units (ofChars cs) = cs.map some := by
    intro cs
    induction cs with
    | nil => rfl
    | cons c cs ih =>
      obtain ⟨b, tail, hencode, hunit⟩ := unit_encodeChar c (ofChars cs)
      rw [ofChars_cons, hencode, List.cons_append, units_cons, hunit, List.drop_left, ih]
      rfl
  rw [decode?_eq_some_iff, encode_eq]
  exact hall s.toList

theorem decode?_ofChars (cs : List Char) : decode? (ofChars cs) = some (String.ofList cs) := by
  rw [← encode_ofList, decode?_encode]

/-- A strict reading is a lenient one. -/
theorem decodeLossy_of_decode? {bs : List UInt8} {s : String} (h : decode? bs = some s) :
    decodeLossy bs = s := by
  rw [decodeLossy, decode?_eq_some_iff.1 h, List.map_map]
  exact (congrArg String.ofList (List.map_id _)).trans String.ofList_toList

/-- A lenient reading in which nothing was replaced is a strict one. -/
theorem decode?_of_decodeLossy {bs : List UInt8} (h : '\uFFFD' ∉ (decodeLossy bs).toList) :
    decode? bs = some (decodeLossy bs) := by
  rw [decode?_eq_some_iff, decodeLossy, String.toList_ofList, List.map_map]
  rw [decodeLossy, String.toList_ofList, List.mem_map] at h
  have hid : ∀ unit ∈ units bs, (some ∘ (·.getD '\uFFFD')) unit = unit := by
    intro unit hunit
    cases unit with
    | none => exact absurd ⟨none, hunit, rfl⟩ h
    | some c => rfl
  rw [List.map_congr_left hid, List.map_id']

/-- Texts behind each other are read one after the other. -/
theorem decode?_append {bs more : List UInt8} {s t : String} (hs : decode? bs = some s)
    (ht : decode? more = some t) : decode? (bs ++ more) = some (s ++ t) := by
  have hall : ∀ (cs : List Char) (bs : List UInt8), units bs = cs.map some →
      units (bs ++ more) = cs.map some ++ units more := by
    intro cs
    induction cs with
    | nil => exact fun bs hcs => by rw [eq_nil_of_units hcs]; rfl
    | cons c cs ih =>
      intro bs hcs
      obtain ⟨b, tail, rest, rfl, hunit, hrest⟩ := exists_of_units hcs
      have hmore : unit b (tail ++ rest ++ more) = (some c, tail.length) := by
        obtain ⟨lead, code, hlead, hfollow, rfl⟩ := of_unit hunit
        rw [unit, hlead]
        simp only [(follow_append more hfollow).1, Option.map_some]
      rw [List.cons_append, units_cons, hmore, List.append_assoc, List.drop_left, ih rest hrest]
      rfl
  rw [decode?_eq_some_iff, hall s.toList bs (decode?_eq_some_iff.1 hs), decode?_eq_some_iff.1 ht,
    String.toList_append, List.map_append]

/-- ASCII is well-formed. -/
theorem decode?_ascii {bs : List UInt8} (h : ∀ b ∈ bs, b < 0x80) :
    decode? bs = some (String.ofList (bs.map fun b => Char.ofNat b.toNat)) := by
  rw [decode?_eq_some_iff, String.toList_ofList]
  induction bs with
  | nil => rfl
  | cons b bs ih =>
    have hunit : unit b bs = (some (Char.ofNat b.toNat), 0) := by
      rw [unit, Lead.ofByte?, if_pos (h b List.mem_cons_self)]
      rfl
    rw [units_cons, hunit, List.drop_zero, ih fun b hb => h b (List.mem_cons_of_mem _ hb)]
    rfl

end Lox.Utf8
