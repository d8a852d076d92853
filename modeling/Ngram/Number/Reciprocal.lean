import Ngram.Number.PowerOfTwo

/-!
# Division by a fixed divisor

A hashed key is reduced modulo the same number of buckets again and again. The divisor `d` is turned
into a reciprocal once, `M = ⌈2^128 / d⌉`, and every quotient is then the high half of a product,

    n / d = (M · n) / 2^128,

worked out from the two 64-bit halves of `M`. A power of two is divided by with a shift instead. All
arithmetic is of fixed width: 64 bits for operands, 128 bits for products.
-/

namespace Ngram

/-- A divisor with what is needed to divide by it quickly: a shift for a power of two, and the
reciprocal otherwise. -/
structure Reciprocal where
  divisor : UInt64
  multiplier : BitVec 128
  shift : Option UInt64
deriving DecidableEq

namespace Reciprocal

/-- A 64-bit operand, widened for a product. -/
def wide (n : UInt64) : BitVec 128 := n.toBitVec.setWidth 128

/-- The low half of a product. -/
def low (n : BitVec 128) : UInt64 := ⟨n.setWidth 64⟩

/-- Prepares a divisor. Division by zero is division by one. -/
def ofDivisor (d : UInt64) : Reciprocal :=
  let d := if d == 0 then 1 else d
  if isPowerOfTwo d.toNat then ⟨d, 0, some d.log2⟩
  else ⟨d, BitVec.allOnes 128 / wide d + 1, none⟩

/-- The quotient of `n`. -/
def divide (r : Reciprocal) (n : UInt64) : UInt64 :=
  match r.shift with
  | some s => n >>> s
  | none =>
    -- the high half of the product of the low half carries into that of the high half
    let carry := (wide (low r.multiplier) * wide n) >>> 64
    low ((wide (low (r.multiplier >>> 64)) * wide n + carry) >>> 64)

/-- The remainder of `n`. -/
def remainder (r : Reciprocal) (n : UInt64) : UInt64 :=
  match r.shift with
  | some _ => n &&& (r.divisor - 1)
  | none => n - r.divide n * r.divisor

end Reciprocal

end Ngram
