/-!
# Powers of two

A number is a power of two when it is the largest power of two that does not exceed it. Rounding up
to a power of two keeps one that already is a power.

Powers and sums of numbers mean the same in each module: their instances are fixed here, so that
they do not depend on what else a module imports.
-/

namespace Ngram

/-- The power that is meant wherever one is written. -/
@[default_instance 20000]
instance (priority := 20000) powNat {α : Type} [NatPow α] : Pow α Nat := instPowNat

/-- The zero that sums of numbers start from. -/
instance (priority := 20000) natZero : Zero Nat := ⟨0⟩

/-- `n` is a power of two; zero is not. -/
def isPowerOfTwo (n : Nat) : Bool := n == 2 ^ n.log2

/-- The least power of two that is at least `n`. -/
def nextPowerOfTwo (n : Nat) : Nat :=
  if n ≤ 1 then 1 else 2 ^ ((n - 1).log2 + 1)

theorem isPowerOfTwo_iff {n : Nat} : isPowerOfTwo n = true ↔ ∃ k, n = 2 ^ k := by
  simp only [isPowerOfTwo, beq_iff_eq]
  constructor
  · exact fun h => ⟨_, h⟩
  · intro h
    obtain ⟨k, rfl⟩ := h
    rw [Nat.log2_two_pow]

theorem isPowerOfTwo_nextPowerOfTwo (n : Nat) : isPowerOfTwo (nextPowerOfTwo n) = true := by
  rw [isPowerOfTwo_iff]
  unfold nextPowerOfTwo
  split
  next => exact ⟨0, rfl⟩
  next => exact ⟨_, rfl⟩

theorem le_nextPowerOfTwo (n : Nat) : n ≤ nextPowerOfTwo n := by
  unfold nextPowerOfTwo
  split
  next h => exact h
  next =>
    have := @Nat.lt_log2_self (n - 1)
    omega

theorem nextPowerOfTwo_pos (n : Nat) : 0 < nextPowerOfTwo n := by
  unfold nextPowerOfTwo
  split
  next => exact Nat.one_pos
  next => exact Nat.pow_pos (by decide)

end Ngram
