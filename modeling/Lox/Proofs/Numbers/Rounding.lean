import Lox.Number.Shortest
import Lox.Proofs.Numbers.Bits

set_option autoImplicit false

/-! # Rounding and the rounding interval

What lies in the rounding interval of a double (`Magnitude.Covers`) is read as this double
(`nearest_eq`). The shortest decimal of a double lies there, however the search for it ends
(`covers_shortest`). -/

namespace Lox.Number

variable {v : Magnitude} {num den : Nat}

/-! ## Rounding to a whole number -/

/-- A quotient at most half away from a number is rounded to it, if the number is even or the quotient
    is nearer. -/
theorem roundHalfEven_eq {m : Nat} (hden : 0 < den) (hlow : 2 * (m * den) ≤ 2 * num + den)
    (hhigh : 2 * num ≤ 2 * (m * den) + den)
    (hodd : m % 2 = 1 → 2 * (m * den) < 2 * num + den ∧ 2 * num < 2 * (m * den) + den) :
    roundHalfEven num den = m := by
  have hnum : num / den * den + num % den = num := by rw [Nat.mul_comm]; exact Nat.div_add_mod _ _
  have hrest : num % den < den := Nat.mod_lt _ hden
  unfold roundHalfEven
  dsimp only
  generalize num / den = quotient at hnum ⊢
  generalize num % den = rest at hnum hrest ⊢
  -- the number is the quotient without its rest or the one above
  have hcases : m = quotient ∨ m = quotient + 1 := by
    rcases Nat.lt_or_ge m quotient with hlt | hge
    · have hmul : (m + 1) * den ≤ quotient * den := Nat.mul_le_mul_right den hlt
      rw [Nat.add_mul, Nat.one_mul] at hmul
      omega
    · rcases Nat.lt_or_ge (quotient + 1) m with hlt | hge
      · have hmul : (quotient + 2) * den ≤ m * den := Nat.mul_le_mul_right den hlt
        rw [Nat.add_mul] at hmul
        omega
      · omega
  rcases hcases with rfl | rfl
  · split
    · rfl
    · split <;> omega
  · rw [Nat.add_mul, Nat.one_mul] at hlow hhigh hodd
    split
    · omega
    · split <;> omega

/-! ## The rounding interval -/

theorem Magnitude.low_mul (v : Magnitude) (den : Nat) : v.low * den =
    4 * (v.mantissa * (2 ^ v.scale * den)) -
      (if v.mantissa = 2 ^ 52 ∧ v.scale ≠ 0 then 1 else 2) * (2 ^ v.scale * den) := by
  have hpow : Nat.pow 2 v.scale = 2 ^ v.scale := rfl
  unfold low
  rw [leadingBit_eq, hpow]
  split <;> rw [Nat.mul_assoc, Nat.sub_mul, Nat.mul_assoc 4]

theorem Magnitude.high_mul (v : Magnitude) (den : Nat) : v.high * den =
    4 * (v.mantissa * (2 ^ v.scale * den)) + 2 * (2 ^ v.scale * den) := by
  have hpow : Nat.pow 2 v.scale = 2 ^ v.scale := rfl
  rw [high, hpow, Nat.mul_assoc, Nat.add_mul, Nat.mul_assoc 4]

/-- A fraction lies in the rounding interval of a magnitude. -/
structure Magnitude.Covers (v : Magnitude) (num den : Nat) : Prop where
  low : v.low * den ≤ 4 * (num * unitsPerOne)
  high : 4 * (num * unitsPerOne) ≤ v.high * den
  /-- The ends count only if the mantissa is even. -/
  strict : v.mantissa % 2 = 1 →
    v.low * den < 4 * (num * unitsPerOne) ∧ 4 * (num * unitsPerOne) < v.high * den

/-- Within the units that have 53 bits at a scale, this is the scale. -/
theorem scale_eq {units scale : Nat} (hden : 0 < den)
    (hlow : scale = 0 ∨ 2 ^ 52 * (2 ^ scale * den) ≤ units)
    (hhigh : units < 2 ^ 53 * (2 ^ scale * den)) : (units / den).log2 - 52 = scale := by
  have hlt : units / den < 2 ^ (53 + scale) := by
    rw [Nat.div_lt_iff_lt_mul hden, Nat.pow_add, Nat.mul_assoc]
    exact hhigh
  have hle : scale = 0 ∨ 2 ^ (52 + scale) ≤ units / den := by
    rw [Nat.le_div_iff_mul_le hden, Nat.pow_add, Nat.mul_assoc]
    exact hlow
  generalize units / den = quotient at hlt hle
  by_cases hzero : quotient = 0
  · subst hzero
    have : 0 < 2 ^ (52 + scale) := Nat.two_pow_pos _
    rw [Nat.log2_zero]
    omega
  · have hlog : quotient.log2 < 53 + scale := (Nat.log2_lt hzero).2 hlt
    rcases hle with rfl | hle
    · omega
    · have : 52 + scale ≤ quotient.log2 := (Nat.le_log2 hzero).2 hle
      omega

theorem nearestBits_of_scale {scale m : Nat}
    (hscale : (num * unitsPerOne / den).log2 - 52 = scale)
    (hround : roundHalfEven (num * unitsPerOne) (2 ^ scale * den) = m)
    (hlt : scale * 2 ^ 52 + m < 2047 * 2 ^ 52) : nearestBits num den = scale * 2 ^ 52 + m := by
  unfold nearestBits
  dsimp only
  rw [hscale]
  rw [Nat.mul_comm (2 ^ scale)] at hround
  exact (congrArg (fun r => min (scale * leadingBit + r) infinityBits) hround).trans
    (Nat.min_eq_left (Nat.le_of_lt hlt))

/-- What lies in the rounding interval of a double is rounded to its bits. -/
theorem nearestBits_eq (h : v.IsDouble) (hden : 0 < den) (hcovers : v.Covers num den) :
    nearestBits num den = v.bits := by
  have hbits := h.bits_lt
  obtain ⟨hlow, hhigh, hstrict⟩ := hcovers
  obtain ⟨hmantissa, hnormal, -⟩ := h
  rw [v.low_mul] at hlow hstrict
  rw [v.high_mul] at hhigh hstrict
  unfold Magnitude.bits at hbits ⊢
  obtain ⟨m, s⟩ := v
  dsimp only at hmantissa hnormal hbits hlow hhigh hstrict ⊢
  by_cases hbelow : s ≠ 0 ∧ m = 2 ^ 52 ∧ num * unitsPerOne < m * (2 ^ s * den)
  · -- below a power of two the scale is less by one, and it is rounded up to the power
    obtain ⟨hs, rfl, hless⟩ := hbelow
    obtain ⟨k, rfl⟩ := Nat.exists_eq_succ_of_ne_zero hs
    have hcarry : k * 2 ^ 52 + 2 ^ 53 = k.succ * 2 ^ 52 + 2 ^ 52 := by
      rw [Nat.succ_mul, Nat.add_assoc, ← Nat.two_pow_succ]
    have hstep : 2 ^ k.succ * den = 2 * (2 ^ k * den) := by rw [Nat.pow_succ', Nat.mul_assoc]
    have hpositive : 0 < 2 ^ k * den := Nat.mul_pos (Nat.two_pow_pos k) hden
    rw [if_pos ⟨rfl, hs⟩, hstep] at hlow
    rw [hstep] at hless
    have hscale : (num * unitsPerOne / den).log2 - 52 = k :=
      scale_eq hden (.inr (by omega)) (by omega)
    have hround : roundHalfEven (num * unitsPerOne) (2 ^ k * den) = 2 ^ 53 :=
      roundHalfEven_eq hpositive (by omega) (by omega) (by omega)
    exact (nearestBits_of_scale hscale hround (by rw [hcarry]; exact hbits)).trans hcarry
  · -- everywhere else the scale is that of the double
    have hpositive : 0 < 2 ^ s * den := Nat.mul_pos (Nat.two_pow_pos s) hden
    have hbound : m * (2 ^ s * den) ≤ (2 ^ 53 - 1) * (2 ^ s * den) :=
      Nat.mul_le_mul_right _ (by omega)
    have hhalf : 4 * (m * (2 ^ s * den)) ≤ 4 * (num * unitsPerOne) + 2 * (2 ^ s * den) := by
      split at hlow <;> omega
    have hfull : s = 0 ∨ 2 ^ 52 * (2 ^ s * den) ≤ num * unitsPerOne := by
      refine Classical.or_iff_not_imp_left.2 fun hs => ?_
      rcases Nat.lt_or_eq_of_le (hnormal.resolve_left hs) with hlt | rfl
      · have hmore : (2 ^ 52 + 1) * (2 ^ s * den) ≤ m * (2 ^ s * den) := Nat.mul_le_mul_right _ hlt
        omega
      · exact Nat.le_of_not_lt fun hless => hbelow ⟨hs, rfl, hless⟩
    have hscale : (num * unitsPerOne / den).log2 - 52 = s := scale_eq hden hfull (by omega)
    have hround : roundHalfEven (num * unitsPerOne) (2 ^ s * den) = m := by
      refine roundHalfEven_eq hpositive (by omega) (by omega) fun hodd => ?_
      have hstrict := hstrict hodd
      rw [if_neg (by rintro ⟨rfl, -⟩; exact absurd hodd (by decide))] at hstrict
      omega
    exact nearestBits_of_scale hscale hround hbits

theorem nearest_eq (h : v.IsDouble) (hden : 0 < den) (hcovers : v.Covers num den) :
    nearest num den = v.double := by
  rw [nearest, nearestBits_eq h hden hcovers]
  rfl

/-! ## Decimals in the interval -/

/-- What is exactly a magnitude is in its interval. -/
theorem covers_of_eq (hden : 0 < den) (h : num * unitsPerOne = v.units * den) :
    v.Covers num den := by
  have hpow : v.units * den = v.mantissa * (2 ^ v.scale * den) := Nat.mul_assoc _ _ _
  have hpositive : 0 < 2 ^ v.scale * den := Nat.mul_pos (Nat.two_pow_pos _) hden
  have hlow := v.low_mul den
  have hhigh := v.high_mul den
  rw [← hpow] at hlow hhigh
  constructor
  · rw [h, hlow]
    omega
  · rw [h, hhigh]
    omega
  · intro hodd
    rw [h, hlow, hhigh, hpow]
    have hle : 2 ^ v.scale * den ≤ v.mantissa * (2 ^ v.scale * den) :=
      Nat.le_mul_of_pos_left _ (by omega)
    split <;> omega

/-- The fraction that a decimal is. -/
theorem holds_iff {d : Decimal} : v.holds d = true ↔
    v.Covers (d.digits * 10 ^ d.exponent.toNat) (10 ^ (-d.exponent).toNat) := by
  have hpow : ∀ n, Nat.pow 10 n = 10 ^ n := fun _ => rfl
  have hpoint : 4 * d.digits * Nat.pow 10 d.exponent.toNat * unitsPerOne =
      4 * (d.digits * 10 ^ d.exponent.toNat * unitsPerOne) := by
    rw [hpow, Nat.mul_assoc 4, Nat.mul_assoc 4]
  unfold Magnitude.holds powerOfTen
  dsimp only
  rw [hpoint, hpow]
  split
  · next heven =>
    rw [decide_eq_true_eq]
    exact ⟨fun h => ⟨h.1, h.2, fun hodd => by omega⟩, fun h => ⟨h.low, h.high⟩⟩
  · next hodd =>
    rw [decide_eq_true_eq]
    exact ⟨fun h => ⟨Nat.le_of_lt h.1, Nat.le_of_lt h.2, fun _ => h⟩, fun h => h.strict (by omega)⟩

theorem holds_nearer {tie : Tie} {exponent : Int} {quotient rest : Nat}
    (hbelow : v.holds ⟨quotient, exponent⟩ = true)
    (habove : v.holds ⟨quotient + 1, exponent⟩ = true) :
    v.holds (nearer tie exponent quotient rest den) = true := by
  unfold nearer
  split
  · exact hbelow
  · split
    · exact habove
    · cases tie with
      | up => exact habove
      | even =>
        dsimp only
        rcases Nat.mod_two_eq_zero_or_one quotient with heven | hodd
        · rw [heven]
          exact hbelow
        · rw [hodd]
          exact habove

theorem holds_of_onGrid {tie : Tie} {exponent : Int} {d : Decimal}
    (h : v.onGrid? tie exponent = some d) : v.holds d = true := by
  unfold Magnitude.onGrid? at h
  dsimp only at h
  split at h
  · next hbelow habove => exact Option.some.inj h ▸ holds_nearer hbelow habove
  · next hbelow _ => exact Option.some.inj h ▸ hbelow
  · next _ habove => exact Option.some.inj h ▸ habove
  · cases h

theorem holds_of_units (v : Magnitude) {n : Nat} (hunits : unitsPerOne = Nat.pow 2 n) :
    v.holds ⟨v.units * Nat.pow 5 n, -n⟩ = true := by
  refine holds_iff.2 (covers_of_eq (Nat.pow_pos (by decide)) ?_)
  have hten : 10 ^ n = Nat.pow 5 n * Nat.pow 2 n := Nat.mul_pow 5 2 n
  dsimp only
  rw [Int.neg_neg, Int.toNat_natCast, Int.toNat_neg_natCast, Nat.pow_zero, Nat.mul_one, hunits, hten,
    Nat.mul_assoc]

/-- All digits of a magnitude are exactly the magnitude. -/
theorem holds_exact (v : Magnitude) : v.holds v.exact = true := by
  have hunits : unitsPerOne = Nat.pow 2 1074 := by
    delta unitsPerOne
    exact Eq.refl _
  have hneg : (-1074 : Int) = -((1074 : Nat) : Int) := rfl
  -- the power is too large to be computed
  rw [Magnitude.exact, hneg]
  generalize (1074 : Nat) = n at hunits ⊢
  exact holds_of_units v hunits

theorem holds_search (tie : Tie) (v : Magnitude) (grids : Nat) (exponent : Int) :
    v.holds (v.search tie grids exponent) = true := by
  induction grids generalizing exponent with
  | zero => exact holds_exact v
  | succ grids ih =>
    unfold Magnitude.search
    split
    · next h => exact holds_of_onGrid h
    · exact ih _

/-- The shortest decimal of a magnitude is in its interval. -/
theorem covers_shortest (tie : Tie) (hzero : v.mantissa ≠ 0) : v.Covers
    ((v.shortest tie).digits * 10 ^ (v.shortest tie).exponent.toNat)
    (10 ^ (-(v.shortest tie).exponent).toNat) := by
  rw [← holds_iff, Magnitude.shortest, if_neg hzero]
  exact holds_search tie v _ _

end Lox.Number
