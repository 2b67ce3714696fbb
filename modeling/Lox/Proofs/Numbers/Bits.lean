import Lox.Number.Binary
import Mathlib.Algebra.Group.Nat.Defs

set_option autoImplicit false

/-! # Finite doubles and their bits

A double is its bit pattern, so two doubles are the same if their bits are. Of a finite double,
`parts` gives the sign and the exact magnitude; its bits are those of the sign and, as a number,
`scale · 2^52 + mantissa` (`exists_parts`). Every such pattern is that of a double
(`Magnitude.toBits_double`), and the opposite of a double differs from it in the sign (`toBits_neg`). -/

namespace Lox.Number

/-! ## Fields of a bit pattern -/

section

open Float.Model Float.Model.UnpackedFloat

theorem toNat_append {v w : Nat} (x : BitVec v) (y : BitVec w) :
    (x ++ y).toNat = x.toNat * 2 ^ w + y.toNat := by
  rw [BitVec.toNat_append, ← Nat.shiftLeft_add_eq_or_of_lt y.isLt, Nat.shiftLeft_eq]

variable (b : BitVec Format.binary64.numBits)

theorem toNat_unpackMantissa : (unpackMantissa b).toNat = b.toNat % 2 ^ 52 := by
  simp only [unpackMantissa, BitVec.toNat_cast, BitVec.extractLsb_toNat, Nat.shiftRight_zero]

theorem toNat_unpackExponent : (unpackExponent b).toNat = b.toNat / 2 ^ 52 % 2 ^ 11 := by
  simp only [unpackExponent, BitVec.toNat_cast, BitVec.extractLsb_toNat, Nat.shiftRight_eq_div_pow]

theorem toNat_unpackSign : (unpackSign b).toNat = b.toNat / 2 ^ 63 % 2 := by
  delta unpackSign
  simp only [BitVec.toNat_cast, BitVec.extractLsb_toNat, Nat.shiftRight_eq_div_pow]

theorem toBitVec_ofBitVec : ∀ b : BitVec 1, (Sign.ofBitVec b).toBitVec = b := by decide

theorem toBitVec_neg : ∀ b : BitVec 1, (-Sign.ofBitVec b).toBitVec.toNat = 1 - b.toNat := by decide

variable (s : Sign) (e : BitVec Format.binary64.exponentBits)
  (m : BitVec Format.binary64.mantissaBitsWithoutImplicit)

theorem toNat_packComponents : (packComponents Format.binary64 s e m).toNat =
    s.toBitVec.toNat * 2 ^ 63 + e.toNat * 2 ^ 52 + m.toNat := by
  rw [packComponents, toNat_append, toNat_append, Nat.add_mul, Nat.mul_assoc, ← Nat.pow_add]
  rfl

theorem pack_subnormal (h : 0 < m.toNat) :
    UnpackedFloat.pack Format.binary64 (.finite s m.toNat (-1074) h) =
      packComponents Format.binary64 s 0#11 m := by
  have hlog : m.toNat.log2 < 52 := (Nat.log2_lt (Nat.pos_iff_ne_zero.1 h)).2 m.isLt
  have hbits : ¬ m.toNat.log2 + 1 = Format.binary64.mantissaBits := by
    show ¬ m.toNat.log2 + 1 = 53
    omega
  delta UnpackedFloat.pack
  dsimp only
  rw [if_neg (by decide), if_neg hbits, BitVec.ofNat_toNat, BitVec.setWidth_eq]

theorem pack_normal (he : e.toNat < 2047) {x : Nat} (hx : x = 2 ^ 52 + m.toNat) (h : 0 < x) :
    UnpackedFloat.pack Format.binary64
        (.finite s x (e.toNat - (Format.binary64.exponentBias + (52 : Nat) : Int)) h) =
      packComponents Format.binary64 s e m := by
  have hm : m.toNat < 2 ^ 52 := m.isLt
  have hlog : x.log2 = 52 := (Nat.log2_eq_iff (by omega)).2 (by omega)
  have hbits : x.log2 + 1 = Format.binary64.mantissaBits := by rw [hlog]; rfl
  have hexp : ((e.toNat - (Format.binary64.exponentBias + (52 : Nat) : Int) : Int) +
      Format.binary64.exponentBias + (52 : Nat)).toNat = e.toNat := by omega
  delta UnpackedFloat.pack
  dsimp only
  rw [hexp, if_neg (by omega), if_pos hbits]
  congr 1
  · rw [BitVec.ofNat_toNat, BitVec.setWidth_eq]
  · apply BitVec.eq_of_toNat_eq
    rw [BitVec.toNat_ofNat, hx]
    show _ % 2 ^ 52 = _
    omega

variable {b}

/-- A finite pattern, taken apart and put together again with another sign. -/
theorem pack_map_unpack (g : UnpackedFloat → UnpackedFloat) (σ : Sign → Sign)
    (hzero : ∀ s, g (.zero s) = .zero (σ s))
    (hfinite : ∀ s m e h, g (.finite s m e h) = .finite (σ s) m e h)
    (h : b.toNat / 2 ^ 52 % 2 ^ 11 ≠ 2047) :
    (UnpackedFloat.pack Format.binary64 (g (UnpackedFloat.unpack Format.binary64 b))).toNat =
      (σ (Sign.ofBitVec (unpackSign b))).toBitVec.toNat * 2 ^ 63 + b.toNat % 2 ^ 63 := by
  have hexponent := toNat_unpackExponent b
  have hmantissa := toNat_unpackMantissa b
  have he : (unpackExponent b).toNat < 2047 := by omega
  have hne : unpackExponent b ≠ -1#_ := fun heq => absurd he (by rw [heq]; decide)
  have hparts : UnpackedFloat.pack Format.binary64 (g (UnpackedFloat.unpack Format.binary64 b)) =
      packComponents Format.binary64 (σ (Sign.ofBitVec (unpackSign b))) (unpackExponent b)
        (unpackMantissa b) := by
    unfold UnpackedFloat.unpack
    dsimp only
    rw [if_neg hne]
    by_cases hexponent : unpackExponent b = 0#_
    · rw [if_pos hexponent]
      by_cases hmantissa : unpackMantissa b = 0#_
      · rw [dif_pos hmantissa, hzero, hexponent, hmantissa]
        rfl
      · rw [dif_neg hmantissa, hfinite, hexponent]
        exact pack_subnormal _ _ _
    · rw [if_neg hexponent, hfinite]
      exact pack_normal _ _ _ he (toNat_append _ _) _
  rw [hparts, toNat_packComponents, hexponent, hmantissa]
  omega

theorem isFinite_unpack :
    (UnpackedFloat.unpack Format.binary64 b).isFinite = true ↔ b.toNat / 2 ^ 52 % 2 ^ 11 ≠ 2047 := by
  have hiff : unpackExponent b = -1#_ ↔ b.toNat / 2 ^ 52 % 2 ^ 11 = 2047 := by
    rw [← BitVec.toNat_inj, toNat_unpackExponent]
    rfl
  unfold UnpackedFloat.unpack
  dsimp only
  rw [Ne, ← hiff]
  by_cases hexponent : unpackExponent b = -1#_
  · rw [if_pos hexponent]
    refine ⟨fun h => absurd h ?_, fun h => absurd hexponent h⟩
    by_cases hmantissa : unpackMantissa b = 0#_
    · rw [if_pos hmantissa]
      exact Bool.false_ne_true
    · rw [if_neg hmantissa]
      exact Bool.false_ne_true
  · rw [if_neg hexponent]
    refine ⟨fun _ => hexponent, fun _ => ?_⟩
    by_cases hzero : unpackExponent b = 0#_
    · rw [if_pos hzero]
      by_cases hmantissa : unpackMantissa b = 0#_
      · rw [dif_pos hmantissa]
        rfl
      · rw [dif_neg hmantissa]
        rfl
    · rw [if_neg hzero]
      rfl

end

/-! ## Doubles -/

variable {x y : Float}

theorem isFinite_iff : x.isFinite = true ↔ x.toBits.toNat / 2 ^ 52 % 2 ^ 11 ≠ 2047 :=
  isFinite_unpack

theorem eq_of_toBits (h : x.toBits.toNat = y.toBits.toNat) : x = y := by
  obtain ⟨⟨bits, valid⟩⟩ := x
  obtain ⟨⟨bits', valid'⟩⟩ := y
  cases (UInt64.toNat_inj.1 h : bits = bits')
  rfl

/-- A finite pattern is kept. -/
theorem toBits_ofBits {bits : UInt64} (h : bits.toNat / 2 ^ 52 % 2 ^ 11 ≠ 2047) :
    (Float.ofBits bits).toBits.toNat = bits.toNat := by
  have hlt := bits.toNat_lt
  refine (pack_map_unpack id id (fun _ => rfl) (fun _ _ _ _ => rfl) h).trans ?_
  rw [id, toBitVec_ofBitVec, toNat_unpackSign]
  show bits.toNat / 2 ^ 63 % 2 * 2 ^ 63 + bits.toNat % 2 ^ 63 = bits.toNat
  omega

/-- The opposite of a positive double, or of zero, has the sign and is otherwise the same. -/
theorem toBits_neg (h : x.isFinite = true) (hpositive : x.toBits.toNat < 2 ^ 63) :
    (-x).toBits.toNat = 2 ^ 63 + x.toBits.toNat := by
  refine (pack_map_unpack .neg Neg.neg (fun _ => rfl) (fun _ _ _ _ => rfl) (isFinite_iff.1 h)).trans ?_
  rw [toBitVec_neg, toNat_unpackSign]
  show (1 - x.toBits.toNat / 2 ^ 63 % 2) * 2 ^ 63 + x.toBits.toNat % 2 ^ 63 = _
  omega

/-! ## Magnitudes -/

/-- A magnitude of a double: the scale is the least at which the mantissa has no more than 53 bits,
    and there are larger scales than those of finite doubles. -/
structure Magnitude.IsDouble (v : Magnitude) : Prop where
  mantissa_lt : v.mantissa < 2 ^ 53
  normal : v.scale = 0 ∨ 2 ^ 52 ≤ v.mantissa
  scale_le : v.scale ≤ 2045

/-- The bits of a magnitude, as a number. -/
def Magnitude.bits (v : Magnitude) : Nat := v.scale * 2 ^ 52 + v.mantissa

/-- The positive double of a magnitude, or zero. -/
def Magnitude.double (v : Magnitude) : Float := Float.ofBits v.bits.toUInt64

namespace Magnitude.IsDouble

variable {v : Magnitude} (h : v.IsDouble)

include h

theorem bits_lt : v.bits < 2047 * 2 ^ 52 := by
  have := h.mantissa_lt
  have := h.scale_le
  unfold bits
  omega

theorem toBits_double : v.double.toBits.toNat = v.bits := by
  have hlt := h.bits_lt
  have hsize : v.bits < UInt64.size := Nat.lt_trans hlt (by decide)
  have hbits : v.bits.toUInt64.toNat = v.bits := UInt64.toNat_ofNat_of_lt' hsize
  rw [double, toBits_ofBits (by omega), hbits]

theorem isFinite_double : v.double.isFinite = true := by
  have hlt := h.bits_lt
  rw [isFinite_iff, h.toBits_double]
  omega

theorem toBits_neg_double : (-v.double).toBits.toNat = 2 ^ 63 + v.bits := by
  have hlt := h.bits_lt
  rw [toBits_neg h.isFinite_double (by rw [h.toBits_double]; omega), h.toBits_double]

end Magnitude.IsDouble

theorem leadingBit_eq : leadingBit = 2 ^ 52 := rfl

/-- The magnitude of a finite double, taken apart by the fields of the pattern. -/
theorem exists_magnitude (h : x.isFinite = true) : ∃ v : Magnitude,
    parts x = .finite (decide (x.toBits.toNat / Nat.pow 2 63 = 1)) v ∧ v.IsDouble ∧
      v.bits = x.toBits.toNat % 2 ^ 63 := by
  have hfinite := isFinite_iff.1 h
  have hfield : ¬ x.toBits.toNat / leadingBit % 2048 = 2047 := hfinite
  unfold parts
  dsimp only
  rw [if_neg hfield]
  generalize x.toBits.toNat = bits at hfinite ⊢
  by_cases hzero : bits / leadingBit % 2048 = 0
  · rw [if_pos hzero]
    rw [leadingBit_eq] at hzero ⊢
    refine ⟨_, rfl, ⟨?_, .inl rfl, Nat.zero_le _⟩, ?_⟩
    · show bits % 2 ^ 52 < 2 ^ 53
      omega
    · show 0 * 2 ^ 52 + bits % 2 ^ 52 = bits % 2 ^ 63
      omega
  · rw [if_neg hzero]
    rw [leadingBit_eq] at hzero ⊢
    refine ⟨_, rfl, ⟨?_, .inr (Nat.le_add_right _ _), ?_⟩, ?_⟩
    · show 2 ^ 52 + bits % 2 ^ 52 < 2 ^ 53
      omega
    · show bits / 2 ^ 52 % 2048 - 1 ≤ 2045
      omega
    · show (bits / 2 ^ 52 % 2048 - 1) * 2 ^ 52 + (2 ^ 52 + bits % 2 ^ 52) = bits % 2 ^ 63
      omega

/-- A finite double is that of a magnitude, or the opposite of it. -/
theorem exists_parts (h : x.isFinite = true) : ∃ negative v, parts x = .finite negative v ∧
    v.IsDouble ∧ x = if negative then -v.double else v.double := by
  obtain ⟨v, hv, hdouble, hbits⟩ := exists_magnitude h
  have hlt := x.toBits.toNat_lt
  refine ⟨_, v, hv, hdouble, eq_of_toBits ?_⟩
  have hpow : Nat.pow 2 63 = 2 ^ 63 := rfl
  by_cases hnegative : x.toBits.toNat / Nat.pow 2 63 = 1
  · rw [if_pos (decide_eq_true hnegative), hdouble.toBits_neg_double]
    rw [hpow] at hnegative
    omega
  · rw [if_neg (Bool.not_eq_true _ ▸ decide_eq_false hnegative), hdouble.toBits_double]
    rw [hpow] at hnegative
    omega

end Lox.Number
