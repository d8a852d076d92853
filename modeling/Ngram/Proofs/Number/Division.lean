import Ngram.Number.Reciprocal
import Mathlib.Tactic.Ring

/-!
# Reciprocal division is exact

`Reciprocal.ofDivisor` rounds `2^128 / d` up, and `divide` takes the high half of a product with the
result. Rounding up makes the reciprocal too large by less than one part in `2^128 / d`; an operand
of 64 bits is too small for that to carry into the quotient (`mul_ceil_div`). The rest of the module
says that the fixed-width steps compute what their formulas say:

> `remainder_ofDivisor`: the remainder of `n` is `n % max d 1`.
> `remainder?_ofDivisor`: no step on the way to it overflows.
> `division_exact`: both of the quotient as well, and of the divisor as it is prepared.

The same remainder is what masking gives when the divisor is a power of two (`and_mask`).
-/

namespace Ngram

namespace Reciprocal

/-- The quotient by the rounded-up reciprocal `M` of `d` is the quotient by `d`: the excess `e` of
`M * d` over `R` stays below `R` when it is multiplied by `n`. -/
theorem mul_ceil_div {d n R M e : Nat} (hd : 0 < d) (hM : M * d = R + e) (he : n * e < R) :
    M * n / R = n / d := by
  have hR : 0 < R := by omega
  have hlow : n / d * d ≤ n := Nat.div_mul_le_self n d
  have hhigh : n + 1 ≤ (n / d + 1) * d := Nat.lt_mul_of_div_lt (Nat.lt_succ_self _) hd
  apply Nat.div_eq_of_lt_le
  · calc n / d * R ≤ n / d * (M * d) := Nat.mul_le_mul_left _ (by omega)
      _ = M * (n / d * d) := by ring
      _ ≤ M * n := Nat.mul_le_mul_left M hlow
  · have hexcess : M * n * d < (n + 1) * R := by
      calc M * n * d = n * (M * d) := by ring
        _ = n * R + n * e := by rw [hM, Nat.mul_add]
        _ < n * R + R := by omega
        _ = (n + 1) * R := by ring
    have hround : (n + 1) * R ≤ (n / d + 1) * R * d := by
      calc (n + 1) * R ≤ (n / d + 1) * d * R := Nat.mul_le_mul_right R hhigh
        _ = (n / d + 1) * R * d := by ring
    exact Nat.lt_of_mul_lt_mul_right (Nat.lt_of_lt_of_le hexcess hround)

/-- Rounding `2^128 / d` up leaves an excess of less than `d`. -/
theorem ceil_mul_excess {d : Nat} (hd : 0 < d) :
    ∃ e, e < d ∧ ((2 ^ 128 - 1) / d + 1) * d = 2 ^ 128 + e := by
  have hsplit : (2 ^ 128 - 1) / d * d + (2 ^ 128 - 1) % d = 2 ^ 128 - 1 := by
    rw [Nat.mul_comm]
    exact Nat.div_add_mod _ _
  have hmod : (2 ^ 128 - 1) % d < d := Nat.mod_lt _ hd
  refine ⟨d - 1 - (2 ^ 128 - 1) % d, by omega, ?_⟩
  rw [Nat.add_mul, Nat.one_mul]
  omega

theorem toNat_wide (n : UInt64) : (wide n).toNat = n.toNat := by
  have := n.toNat_lt
  simp only [wide, BitVec.toNat_setWidth, UInt64.toNat_toBitVec]
  omega

theorem toNat_low (n : BitVec 128) : (low n).toNat = n.toNat % 2 ^ 64 := by
  simp [low, ← UInt64.toNat_toBitVec]

/-- The high half of a product from the halves of its first factor. -/
theorem high_mul_halves (M n : Nat) :
    (M / 2 ^ 64 * n + M % 2 ^ 64 * n / 2 ^ 64) / 2 ^ 64 = M * n / 2 ^ 128 := by
  have hsplit : M * n = M % 2 ^ 64 * n + 2 ^ 64 * (M / 2 ^ 64 * n) := by
    conv_lhs => rw [← Nat.mod_add_div M (2 ^ 64)]
    ring
  rw [show (2 : Nat) ^ 128 = 2 ^ 64 * 2 ^ 64 from rfl, ← Nat.div_div_eq_div_mul, hsplit,
    Nat.add_mul_div_left _ _ (by decide), Nat.add_comm]

/-- The product of two 64-bit operands fits into 128 bits. -/
theorem toNat_wide_mul (a b : UInt64) : (wide a * wide b).toNat = a.toNat * b.toNat := by
  rw [BitVec.toNat_mul, toNat_wide, toNat_wide]
  apply Nat.mod_eq_of_lt
  calc a.toNat * b.toNat < 2 ^ 64 * 2 ^ 64 := Nat.mul_lt_mul'' a.toNat_lt b.toNat_lt
    _ = 2 ^ 128 := by decide

/-- The product with the low half of a multiplier fits into 128 bits. -/
theorem low_mul_lt (M : BitVec 128) (n : UInt64) : M.toNat % 2 ^ 64 * n.toNat < 2 ^ 128 := by
  calc M.toNat % 2 ^ 64 * n.toNat < 2 ^ 64 * 2 ^ 64 :=
        Nat.mul_lt_mul'' (Nat.mod_lt _ (by decide)) n.toNat_lt
    _ = 2 ^ 128 := by decide

/-- So does the product with the high half, with what the low one carries into it. -/
theorem high_mul_add_lt (M : BitVec 128) (n : UInt64) :
    M.toNat / 2 ^ 64 * n.toNat + M.toNat % 2 ^ 64 * n.toNat / 2 ^ 64 < 2 ^ 128 := by
  have hn := n.toNat_lt
  have hM := M.isLt
  have hlow := low_mul_lt M n
  have hle : M.toNat / 2 ^ 64 * n.toNat ≤ (2 ^ 64 - 1) * (2 ^ 64 - 1) :=
    Nat.mul_le_mul (by omega) (by omega)
  omega

/-- `divide` without a shift takes the high half of the product with the multiplier. -/
theorem toNat_divide {r : Reciprocal} (hs : r.shift = none) (n : UInt64) :
    (r.divide n).toNat = r.multiplier.toNat * n.toNat / 2 ^ 128 % 2 ^ 64 := by
  have hhalf : r.multiplier.toNat / 2 ^ 64 < 2 ^ 64 := by
    have := r.multiplier.isLt
    omega
  have hsum := high_mul_add_lt r.multiplier n
  simp only [divide, hs, toNat_low, BitVec.toNat_ushiftRight, BitVec.toNat_add, toNat_wide_mul,
    Nat.shiftRight_eq_div_pow, Nat.mod_eq_of_lt hhalf, Nat.mod_eq_of_lt hsum, high_mul_halves]

/-- A divisor that is no power of two is at least three. -/
theorem two_lt_of_not_isPowerOfTwo {d : Nat} (hd : 0 < d) (h : isPowerOfTwo d = false) :
    2 < d := by
  by_contra hle
  have hpow : isPowerOfTwo d = true := by
    rcases (by omega : d = 1 ∨ d = 2) with rfl | rfl
    · rfl
    · rfl
  simp [hpow] at h

/-- The multiplier of a divisor that is no power of two. -/
theorem toNat_multiplier {d : UInt64} (hd : 2 < d.toNat) :
    (BitVec.allOnes 128 / wide d + 1).toNat = (2 ^ 128 - 1) / d.toNat + 1 := by
  have hle : (2 ^ 128 - 1) / d.toNat ≤ (2 ^ 128 - 1) / 2 :=
    Nat.div_le_div_left (by omega) (by decide)
  have hlt : (2 ^ 128 - 1) / d.toNat + 1 < 2 ^ 128 := by omega
  rw [BitVec.toNat_add, BitVec.toNat_udiv, BitVec.toNat_allOnes, toNat_wide]
  exact Nat.mod_eq_of_lt hlt

/-- Masking with one less than a power of two takes the remainder. -/
theorem and_mask {n d : UInt64} (h : isPowerOfTwo d.toNat = true) :
    (n &&& (d - 1)).toNat = n.toNat % d.toNat := by
  obtain ⟨k, hk⟩ := isPowerOfTwo_iff.1 h
  have hpos : 0 < d.toNat := by
    rw [hk]
    exact Nat.two_pow_pos k
  have hle : (1 : UInt64) ≤ d := by
    rw [UInt64.le_iff_toNat_le]
    exact hpos
  rw [UInt64.toNat_and, UInt64.toNat_sub_of_le _ _ hle, UInt64.toNat_one, hk,
    Nat.and_two_pow_sub_one_eq_mod]

/-- One stands in for zero. -/
theorem toNat_one_for_zero (d : UInt64) : (if d == 0 then 1 else d).toNat = max d.toNat 1 := by
  by_cases h : d = 0
  · subst h
    rfl
  · have hpos : d.toNat ≠ 0 := fun hz => h (UInt64.toNat_inj.1 hz)
    rw [if_neg (by simpa using h)]
    omega

/-- What is prepared is the divisor, with one in place of zero. -/
theorem ofDivisor_eq (d : UInt64) :
    ∃ d' : UInt64, d'.toNat = max d.toNat 1 ∧ ofDivisor d =
      if isPowerOfTwo d'.toNat then ⟨d', 0, some d'.log2⟩
      else ⟨d', BitVec.allOnes 128 / wide d' + 1, none⟩ :=
  ⟨if d == 0 then 1 else d, toNat_one_for_zero d, rfl⟩

theorem divisor_ofDivisor (d : UInt64) : (ofDivisor d).divisor.toNat = max d.toNat 1 := by
  obtain ⟨d', hd', heq⟩ := ofDivisor_eq d
  rw [heq, ← hd']
  split
  next => rfl
  next => rfl

/-- Division by a power of two is a shift, division by any other number a product. -/
theorem ofDivisor_cases (d : UInt64) :
    ((ofDivisor d).shift = some (ofDivisor d).divisor.log2 ∧
      isPowerOfTwo (ofDivisor d).divisor.toNat = true) ∨
    ((ofDivisor d).shift = none ∧ 2 < (ofDivisor d).divisor.toNat ∧
      (ofDivisor d).multiplier = BitVec.allOnes 128 / wide (ofDivisor d).divisor + 1) := by
  obtain ⟨d', hd', heq⟩ := ofDivisor_eq d
  rw [heq]
  split
  next hp => exact Or.inl ⟨rfl, hp⟩
  next hp =>
    have hpos : 0 < d'.toNat := by omega
    exact Or.inr ⟨rfl, two_lt_of_not_isPowerOfTwo hpos (by simpa using hp), rfl⟩

/-- The logarithm of an operand is small enough to shift by. -/
theorem log2_lt (d : UInt64) : d.log2 < 64 := by
  rw [UInt64.lt_iff_toNat_lt]
  show d.toNat.log2 < 64
  by_cases hd : d.toNat = 0
  · rw [hd]
    decide
  · exact (Nat.log2_lt hd).2 d.toNat_lt

/-- Shifting by the logarithm of a power of two divides by it. -/
theorem shiftRight_log2 {n d : UInt64} (h : isPowerOfTwo d.toNat = true) :
    (n >>> d.log2).toNat = n.toNat / d.toNat := by
  have hpow : d.toNat = 2 ^ d.log2.toNat := eq_of_beq h
  have hshift : d.log2.toNat < 64 := UInt64.lt_iff_toNat_lt.1 (log2_lt d)
  rw [UInt64.toNat_shiftRight, Nat.mod_eq_of_lt hshift, Nat.shiftRight_eq_div_pow, ← hpow]

/-- The quotient by a prepared divisor is the quotient. -/
theorem toNat_divide_ofDivisor (d n : UInt64) :
    ((ofDivisor d).divide n).toNat = n.toNat / (ofDivisor d).divisor.toNat := by
  rcases ofDivisor_cases d with ⟨hs, hp⟩ | ⟨hs, hd, hmul⟩
  · simp only [divide, hs]
    exact shiftRight_log2 hp
  · have hn := n.toNat_lt
    have hdlt := (ofDivisor d).divisor.toNat_lt
    obtain ⟨e, he, hM⟩ := ceil_mul_excess (d := (ofDivisor d).divisor.toNat) (by omega)
    have hexcess : n.toNat * e < 2 ^ 128 := by
      calc n.toNat * e < 2 ^ 64 * 2 ^ 64 := Nat.mul_lt_mul'' hn (by omega)
        _ = 2 ^ 128 := by decide
    rw [toNat_divide hs, hmul, toNat_multiplier hd, mul_ceil_div (by omega) hM hexcess]
    exact Nat.mod_eq_of_lt (Nat.lt_of_le_of_lt (Nat.div_le_self _ _) hn)

/-- The remainder by a prepared divisor is the remainder. -/
theorem remainder_ofDivisor (d n : UInt64) :
    ((ofDivisor d).remainder n).toNat = n.toNat % max d.toNat 1 := by
  rw [← divisor_ofDivisor]
  rcases ofDivisor_cases d with ⟨hs, hp⟩ | ⟨hs, hd, -⟩
  · simp only [remainder, hs]
    exact and_mask hp
  · have hq := toNat_divide_ofDivisor d n
    have hle : n.toNat / (ofDivisor d).divisor.toNat * (ofDivisor d).divisor.toNat ≤ n.toNat :=
      Nat.div_mul_le_self _ _
    have hmul : ((ofDivisor d).divide n * (ofDivisor d).divisor).toNat
        = n.toNat / (ofDivisor d).divisor.toNat * (ofDivisor d).divisor.toNat := by
      rw [UInt64.toNat_mul, hq]
      exact Nat.mod_eq_of_lt (Nat.lt_of_le_of_lt hle n.toNat_lt)
    have hsub : (ofDivisor d).divide n * (ofDivisor d).divisor ≤ n := by
      rw [UInt64.le_iff_toNat_le, hmul]
      exact hle
    simp only [remainder, hs]
    rw [UInt64.toNat_sub_of_le _ _ hsub, hmul, Nat.mod_eq_sub_div_mul]

/-! ## No step overflows -/

/-- A number, if it fits into some bits. -/
def fit? (bits n : Nat) : Option Nat := if n < 2 ^ bits then some n else none

theorem fit?_of_lt {bits n : Nat} (h : n < 2 ^ bits) : fit? bits n = some n := if_pos h

/-- Prepares a divisor with each step checked: nothing if its reciprocal does not fit into 128 bits
when it is rounded up. -/
def ofDivisor? (d : UInt64) : Option Reciprocal :=
  let d := if d == 0 then 1 else d
  if isPowerOfTwo d.toNat then some ⟨d, 0, some d.log2⟩
  else (fit? 128 ((2 ^ 128 - 1) / d.toNat + 1)).map fun m => ⟨d, .ofNat 128 m, none⟩

/-- The quotient with each step checked: nothing if a product or the sum does not fit into 128 bits,
or if nothing of the number is left to shift. -/
def divide? (r : Reciprocal) (n : UInt64) : Option Nat :=
  match r.shift with
  | some s => if s < 64 then some (n >>> s).toNat else none
  | none => do
    let low ← fit? 128 (r.multiplier.toNat % 2 ^ 64 * n.toNat)
    let high ← fit? 128 (r.multiplier.toNat / 2 ^ 64 * n.toNat)
    let sum ← fit? 128 (high + low / 2 ^ 64)
    some (sum / 2 ^ 64 % 2 ^ 64)

/-- The remainder with each step checked: nothing if the divisor is zero, if the quotient cannot be
worked out, or if its product with the divisor does not fit into 64 bits or exceeds the number. -/
def remainder? (r : Reciprocal) (n : UInt64) : Option Nat :=
  match r.shift with
  | some _ => if 1 ≤ r.divisor then some (n &&& (r.divisor - 1)).toNat else none
  | none => do
    let quotient ← r.divide? n
    let product ← fit? 64 (quotient * r.divisor.toNat)
    if product ≤ n.toNat then some (n.toNat - product) else none

/-- No step of a division by a multiplier overflows, whatever the multiplier is. -/
theorem divide?_eq {r : Reciprocal} (hs : r.shift = none) (n : UInt64) :
    r.divide? n = some (r.divide n).toNat := by
  have hlow := low_mul_lt r.multiplier n
  have hsum := high_mul_add_lt r.multiplier n
  have hhigh := Nat.lt_of_le_of_lt (Nat.le_add_right _ _) hsum
  rw [toNat_divide hs, ← high_mul_halves]
  simp only [divide?, hs, fit?_of_lt hlow, fit?_of_lt hhigh, fit?_of_lt hsum, bind,
    Option.bind_some]

/-- No step towards a quotient overflows. -/
theorem divide?_ofDivisor (d n : UInt64) :
    (ofDivisor d).divide? n = some ((ofDivisor d).divide n).toNat := by
  rcases ofDivisor_cases d with ⟨hs, -⟩ | ⟨hs, -, -⟩
  · simp only [divide?, divide, hs, if_pos (log2_lt _)]
  · exact divide?_eq hs n

/-- **No step towards a remainder overflows.** -/
theorem remainder?_ofDivisor (d n : UInt64) :
    (ofDivisor d).remainder? n = some ((ofDivisor d).remainder n).toNat := by
  rcases ofDivisor_cases d with ⟨hs, -⟩ | ⟨hs, hd, -⟩
  · have hpos : (1 : UInt64) ≤ (ofDivisor d).divisor := by
      rw [UInt64.le_iff_toNat_le, divisor_ofDivisor]
      exact Nat.le_max_right _ _
    simp only [remainder?, remainder, hs, if_pos hpos]
  · have hle : n.toNat / (ofDivisor d).divisor.toNat * (ofDivisor d).divisor.toNat ≤ n.toNat :=
      Nat.div_mul_le_self _ _
    have hfits := Nat.lt_of_le_of_lt hle n.toNat_lt
    rw [remainder_ofDivisor, ← divisor_ofDivisor]
    simp only [remainder?, hs, divide?_ofDivisor, toNat_divide_ofDivisor, bind, Option.bind_some,
      fit?_of_lt hfits, if_pos hle]
    rw [Nat.mod_eq_sub_div_mul]

/-- No divisor is so small that its reciprocal does not fit. -/
theorem ofDivisor?_eq (d : UInt64) : ofDivisor? d = some (ofDivisor d) := by
  unfold ofDivisor? ofDivisor
  dsimp only
  have hpos : 0 < (if d == 0 then 1 else d).toNat := by
    rw [toNat_one_for_zero]
    exact Nat.le_max_right _ _
  generalize (if d == 0 then 1 else d) = d' at hpos ⊢
  split
  next => rfl
  next hp =>
    have hm := toNat_multiplier (two_lt_of_not_isPowerOfTwo hpos (by simpa using hp))
    rw [← hm, fit?_of_lt (BitVec.isLt _), Option.map_some, BitVec.ofNat_toNat, BitVec.setWidth_eq]

/-- **Division by a prepared divisor is exact.** Zero counts as one; quotient and remainder are
those of the numbers, whether they are shifted and masked or multiplied; and no step of either, or
of the preparation, overflows. -/
theorem division_exact (d n : UInt64) :
    ((ofDivisor d).divide n).toNat = n.toNat / max d.toNat 1 ∧
      ((ofDivisor d).remainder n).toNat = n.toNat % max d.toNat 1 ∧
      ((ofDivisor d).remainder n).toNat < max d.toNat 1 ∧
      ofDivisor? d = some (ofDivisor d) ∧
      (ofDivisor d).divide? n = some (n.toNat / max d.toNat 1) ∧
      (ofDivisor d).remainder? n = some (n.toNat % max d.toNat 1) := by
  have hquotient : ((ofDivisor d).divide n).toNat = n.toNat / max d.toNat 1 := by
    rw [toNat_divide_ofDivisor, divisor_ofDivisor]
  have hremainder : ((ofDivisor d).remainder n).toNat = n.toNat % max d.toNat 1 :=
    remainder_ofDivisor d n
  have hpos : 0 < max d.toNat 1 := Nat.le_max_right _ _
  refine ⟨hquotient, hremainder, ?_, ofDivisor?_eq d, ?_, ?_⟩
  · rw [hremainder]
    exact Nat.mod_lt _ hpos
  · rw [divide?_ofDivisor, hquotient]
  · rw [remainder?_ofDivisor, hremainder]

end Reciprocal

end Ngram
