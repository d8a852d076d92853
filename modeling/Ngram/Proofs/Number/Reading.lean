import Mathlib
import Ngram.Number.Ieee

/-!
# Bit patterns as numbers

Two questions about a binary32 number are answered by its bit pattern alone: whether it is a zero,
and whether it is finite and at least one. Here both are answered by the number that the pattern
stands for, which is a rational number unless it is an infinity or no number at all.

> `Reading.rational`: the exact value of what was read from a pattern.
> `Single.rational_eq`: the value from the fields of the pattern.
> `Single.isZero_iff`, `Single.isFiniteFromOne_iff`: the two questions.
-/

namespace Ngram

/-- The exact value of a finite number. -/
def Reading.rational : Reading → Option ℚ
  | .finite negative m =>
    some ((if negative then -1 else 1) * (m.mantissa * (2 : ℚ) ^ m.exponent))
  | _ => none

namespace Single

/-- The bits of the fraction. -/
def fraction (x : Single) : Nat := x.bits.toNat % 2 ^ 23

/-- The bits of the exponent. -/
def field (x : Single) : Nat := x.bits.toNat / 2 ^ 23 % 2 ^ 8

/-- The sign, the exponent and the fraction make up the pattern. -/
theorem toNat_bits (x : Single) :
    x.bits.toNat = x.bits.toNat / 2 ^ 31 * 2 ^ 31 + x.field * 2 ^ 23 + x.fraction := by
  unfold field fraction
  omega

theorem fraction_lt (x : Single) : x.fraction < 2 ^ 23 := Nat.mod_lt _ (by decide)

theorem field_lt (x : Single) : x.field < 2 ^ 8 := Nat.mod_lt _ (by decide)

/-- The digits of a finite number: a bit in front of the fraction is set unless all bits of the
exponent are clear. -/
def significand (x : Single) : Nat := if x.field = 0 then x.fraction else 2 ^ 23 + x.fraction

/-- The value of a pattern, from its fields. -/
theorem rational_eq (x : Single) : x.reading.rational =
    if x.field = 2 ^ 8 - 1 then none
    else some ((if x.bits.toNat / 2 ^ 31 % 2 = 1 then -1 else 1) *
      (x.significand * (2 : ℚ) ^ ((max x.field 1 : Nat) - 150 : ℤ))) := by
  have hread : x.reading = if x.field == 2 ^ 8 - 1 then
        if x.fraction == 0 then .infinite (x.bits.toNat / 2 ^ 31 % 2 == 1) else .nan
      else if x.field == 0 then
        .finite (x.bits.toNat / 2 ^ 31 % 2 == 1) ⟨x.fraction, 1 - 150, false⟩
      else .finite (x.bits.toNat / 2 ^ 31 % 2 == 1)
        ⟨2 ^ 23 + x.fraction, x.field - 150, x.fraction == 0 && x.field != 1⟩ := rfl
  rw [hread]
  simp only [beq_iff_eq, significand]
  by_cases hfull : x.field = 2 ^ 8 - 1
  · rw [if_pos hfull, if_pos hfull]
    split
    next => rfl
    next => rfl
  · rw [if_neg hfull, if_neg hfull]
    by_cases hzero : x.field = 0
    · rw [if_pos hzero, if_pos hzero, hzero]
      simp [Reading.rational]
    · have hmax : max x.field 1 = x.field := Nat.max_eq_left (Nat.pos_of_ne_zero hzero)
      rw [if_neg hzero, if_neg hzero, hmax]
      simp [Reading.rational]

/-- The pattern without its sign. -/
theorem toNat_and_magnitude (x : Single) :
    (x.bits &&& 0x7fffffff).toNat = x.field * 2 ^ 23 + x.fraction := by
  have hmask : (0x7fffffff : UInt32).toNat = 2 ^ 31 - 1 := rfl
  rw [UInt32.toNat_and, hmask, Nat.and_two_pow_sub_one_eq_mod]
  have hfraction := x.fraction_lt
  have hfield := x.field_lt
  have hbits := x.toNat_bits
  omega

/-- **A pattern is a zero if its value is.** Neither infinities nor what is not a number are. -/
theorem isZero_iff (x : Single) : x.isZero = true ↔ x.reading.rational = some 0 := by
  have hzero : x.isZero = true ↔ x.field = 0 ∧ x.fraction = 0 := by
    rw [isZero, beq_iff_eq, ← UInt32.toNat_inj, toNat_and_magnitude]
    show x.field * 2 ^ 23 + x.fraction = 0 ↔ _
    omega
  have hpower : (2 : ℚ) ^ ((max x.field 1 : Nat) - 150 : ℤ) ≠ 0 :=
    zpow_ne_zero _ two_ne_zero
  have hsign : (if x.bits.toNat / 2 ^ 31 % 2 = 1 then -1 else 1 : ℚ) ≠ 0 := by
    split
    next => exact neg_ne_zero.2 one_ne_zero
    next => exact one_ne_zero
  rw [hzero, rational_eq]
  constructor
  · rintro ⟨hfield, hfraction⟩
    rw [if_neg (by rw [hfield]; decide), significand, if_pos hfield, hfraction, Nat.cast_zero,
      zero_mul, mul_zero]
  · intro h
    split at h
    next => cases h
    next =>
      have hproduct := Option.some.inj h
      rw [mul_eq_zero, or_iff_right hsign, mul_eq_zero, or_iff_left hpower,
        Nat.cast_eq_zero] at hproduct
      unfold significand at hproduct
      split at hproduct
      next hfield => exact ⟨hfield, hproduct⟩
      next => omega

/-- From the exponent of `1.0` on a magnitude is at least one. -/
theorem one_le_magnitude (x : Single) (h : 127 ≤ x.field) :
    (1 : ℚ) ≤ x.significand * 2 ^ ((max x.field 1 : Nat) - 150 : ℤ) := by
  have hsignificand : (2 : ℚ) ^ 23 ≤ x.significand := by
    rw [significand, if_neg (by omega)]
    exact_mod_cast Nat.le_add_right _ _
  have hpower : (2 : ℚ) ^ (-23 : ℤ) ≤ 2 ^ ((max x.field 1 : Nat) - 150 : ℤ) :=
    zpow_le_zpow_right₀ one_le_two (by omega)
  calc (1 : ℚ) = 2 ^ 23 * 2 ^ (-23 : ℤ) := by norm_num
    _ ≤ x.significand * 2 ^ ((max x.field 1 : Nat) - 150 : ℤ) := by gcongr

/-- Below it a magnitude is less than one. -/
theorem magnitude_lt_one (x : Single) (h : x.field < 127) :
    x.significand * (2 : ℚ) ^ ((max x.field 1 : Nat) - 150 : ℤ) < 1 := by
  have hfraction := x.fraction_lt
  have hsignificand : (x.significand : ℚ) < 2 ^ 24 := by
    have hnat : x.significand < 2 ^ 24 := by
      unfold significand
      split
      next => omega
      next => omega
    exact_mod_cast hnat
  have hpower : (2 : ℚ) ^ ((max x.field 1 : Nat) - 150 : ℤ) ≤ 2 ^ (-24 : ℤ) :=
    zpow_le_zpow_right₀ one_le_two (by omega)
  calc x.significand * (2 : ℚ) ^ ((max x.field 1 : Nat) - 150 : ℤ)
      ≤ x.significand * 2 ^ (-24 : ℤ) := by gcongr
    _ < 2 ^ 24 * 2 ^ (-24 : ℤ) := by gcongr
    _ = 1 := by norm_num

/-- **A pattern lies between those of `1.0` and of infinity if its value is at least one.** -/
theorem isFiniteFromOne_iff (x : Single) :
    x.isFiniteFromOne = true ↔ ∃ q, x.reading.rational = some q ∧ 1 ≤ q := by
  have hrange : x.isFiniteFromOne = true ↔
      x.bits.toNat / 2 ^ 31 = 0 ∧ 127 ≤ x.field ∧ x.field ≠ 2 ^ 8 - 1 := by
    rw [isFiniteFromOne, Bool.and_eq_true, decide_eq_true_iff, decide_eq_true_iff,
      UInt32.le_iff_toNat_le, UInt32.lt_iff_toNat_lt]
    show 0x3f800000 ≤ x.bits.toNat ∧ x.bits.toNat < 0x7f800000 ↔ _
    have hfraction := x.fraction_lt
    have hfield := x.field_lt
    have hbits := x.toNat_bits
    omega
  have hlt : x.bits.toNat < 2 ^ 32 := x.bits.toNat_lt
  rw [hrange, rational_eq]
  constructor
  · rintro ⟨hsign, hlow, hfull⟩
    refine ⟨_, if_neg hfull, ?_⟩
    rw [if_neg (by omega), one_mul]
    exact x.one_le_magnitude hlow
  · rintro ⟨q, hq, hone⟩
    split at hq
    next => cases hq
    next hfull =>
      obtain rfl := Option.some.inj hq
      have hmagnitude : (0 : ℚ) ≤ x.significand * 2 ^ ((max x.field 1 : Nat) - 150 : ℤ) := by
        positivity
      -- a negative number is less than one, and so is one with a smaller exponent
      by_cases hsign : x.bits.toNat / 2 ^ 31 % 2 = 1
      · rw [if_pos hsign] at hone
        linarith
      · rw [if_neg hsign, one_mul] at hone
        refine ⟨by omega, ?_, hfull⟩
        by_contra hlow
        exact absurd hone (not_le.2 (x.magnitude_lt_one (Nat.lt_of_not_le hlow)))

end Single

end Ngram
