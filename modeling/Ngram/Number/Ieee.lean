import Ngram.Number.PowerOfTwo

/-!
# IEEE 754 values by their bit patterns

Every stored or computed weight is an IEEE 754 number, and some of its bits carry meaning of their
own: the sign bit of a stored probability is a flag, `-0.0` differs from `+0.0`, and the payload of
a NaN has to survive a trip through a file. So a `Single` (32 bits) or `Double` (64 bits) *is* its
bit pattern. Equality is equality of bits; arithmetic rounds once per operation, as the standard
says, and is the only place where the patterns are read as numbers.
-/

namespace Ngram

/-- A binary32 number, as its bit pattern. -/
structure Single where
  bits : UInt32
deriving DecidableEq, Inhabited

/-- A binary64 number, as its bit pattern. -/
structure Double where
  bits : UInt64
deriving DecidableEq, Inhabited

/-- The magnitude of a finite binary number: `mantissa · 2^exponent`. Directly above a power of two
the gap to the next smaller number is half the gap to the next larger one (`narrow`). -/
structure Magnitude where
  mantissa : Nat
  exponent : Int
  narrow : Bool

/-- What a bit pattern stands for. -/
inductive Reading where
  | nan
  | infinite (negative : Bool)
  | finite (negative : Bool) (magnitude : Magnitude)

/-- Splits a pattern into its fields: `places` bits of fraction below `width` bits of exponent. -/
def Reading.ofFields (width places : Nat) (bits : Nat) : Reading :=
  let fraction := bits % 2 ^ places
  let field := bits / 2 ^ places % 2 ^ width
  let negative := bits / 2 ^ (places + width) % 2 == 1
  let bias : Int := 2 ^ (width - 1) - 1 + places
  if field == 2 ^ width - 1 then
    if fraction == 0 then .infinite negative else .nan
  else if field == 0 then .finite negative ⟨fraction, 1 - bias, false⟩
  else .finite negative ⟨2 ^ places + fraction, field - bias, fraction == 0 && field != 1⟩

/-- Reads the fields of a binary32 number. -/
def Single.reading (x : Single) : Reading := .ofFields 8 23 x.bits.toNat

/-- Reads the fields of a binary64 number. -/
def Double.reading (x : Double) : Reading := .ofFields 11 52 x.bits.toNat

namespace Single

/-- The value `+0.0`. -/
def zero : Single := ⟨0⟩

/-- The value `-0.0`. -/
def negZero : Single := ⟨0x80000000⟩

/-- The number that the bits denote. -/
def value (x : Single) : Float32 := Float32.ofBits x.bits

/-- The bits of a computed number. -/
def ofValue (v : Float32) : Single := ⟨v.toBits⟩

/-- A sum, rounded once. -/
def add (x y : Single) : Single := ofValue (x.value + y.value)

instance : Add Single := ⟨add⟩

/-- A zero of either sign. -/
def isZero (x : Single) : Bool := x.bits &&& 0x7fffffff == 0

/-- The sign bit is set. -/
def isNegative (x : Single) : Bool := x.bits &&& 0x80000000 != 0

/-- An exponent of ones with a payload. -/
def isNaN (x : Single) : Bool := x.bits &&& 0x7fffffff > 0x7f800000

/-- The same number with its sign bit set. -/
def setSign (x : Single) : Single := ⟨x.bits ||| 0x80000000⟩

/-- The same number with its sign bit clear. -/
def clearSign (x : Single) : Single := ⟨x.bits &&& 0x7fffffff⟩

/-- A finite number that is at least one: between the patterns of `1.0` and of infinity. -/
def isFiniteFromOne (x : Single) : Bool := 0x3f800000 ≤ x.bits && x.bits < 0x7f800000

@[simp] theorem bits_setSign (x : Single) : x.setSign.bits = x.bits ||| 0x80000000 := rfl

@[simp] theorem bits_clearSign (x : Single) : x.clearSign.bits = x.bits &&& 0x7fffffff := rfl

@[ext] theorem ext {x y : Single} (h : x.bits = y.bits) : x = y := by
  cases x; cases y; cases h; rfl

end Single

namespace Double

/-- The value `+0.0`. -/
def zero : Double := ⟨0⟩

/-- The value `-0.0`, which leaves every number that it is added to unchanged. -/
def negZero : Double := ⟨0x8000000000000000⟩

/-- The number that the bits denote. -/
def value (x : Double) : Float := Float.ofBits x.bits

/-- The bits of a computed number. -/
def ofValue (v : Float) : Double := ⟨v.toBits⟩

/-- A sum, rounded once. -/
def add (x y : Double) : Double := ofValue (x.value + y.value)

instance : Add Double := ⟨add⟩

/-- An exponent of ones with a payload. -/
def isNaN (x : Double) : Bool := x.bits &&& 0x7fffffffffffffff > 0x7ff0000000000000

/-- A number with a given sign. -/
def withSign (negative : Bool) (x : Double) : Double :=
  if negative then ⟨x.bits ||| 0x8000000000000000⟩ else x

/-- A power of two, for exponents of normal numbers. -/
def powerOfTwo (exponent : Int) : Double := ⟨(exponent + 1023).toNat.toUInt64 <<< 52⟩

/-- The next whole number, as a count of 64 bits: a negative number counts nothing, nor does what is
not a number, and what is too large counts as much as fits. -/
def ceilCount (x : Double) : Nat :=
  let most := 2 ^ 64 - 1
  match x.reading with
  | .nan => 0
  | .infinite negative => if negative then 0 else most
  | .finite negative m =>
    if negative then 0
    else if 0 ≤ m.exponent then min most (m.mantissa * 2 ^ m.exponent.toNat)
    else
      let one := 2 ^ (-m.exponent).toNat
      min most ((m.mantissa + one - 1) / one)

theorem ceilCount_lt (x : Double) : x.ceilCount < 2 ^ 64 := by
  unfold ceilCount
  dsimp only
  split
  next => omega
  next => split <;> omega
  next =>
    split
    next => omega
    next => split <;> omega

/-- A quotient of two counts, each rounded first. -/
def ratio (n d : Nat) : Double := ofValue (n.toUInt64.toFloat / d.toUInt64.toFloat)

/-- The sum of a list from the left; an empty sum is `-0.0`. -/
def sum (xs : List Double) : Double := xs.foldl (· + ·) negZero

@[ext] theorem ext {x y : Double} (h : x.bits = y.bits) : x = y := by
  cases x; cases y; cases h; rfl

@[simp] theorem sum_nil : sum [] = negZero := rfl

theorem sum_append (xs ys : List Double) : sum (xs ++ ys) = ys.foldl (· + ·) (sum xs) := by
  simp [sum]

end Double

/-- Every binary32 number is a binary64 number; the payload of a NaN is dropped. -/
def Single.toDouble (x : Single) : Double :=
  match x.reading with
  | .nan => ⟨0x7ff8000000000000⟩
  | .infinite negative => .withSign negative ⟨0x7ff0000000000000⟩
  | .finite negative m =>
    let value := m.mantissa.toUInt64.toFloat * (Double.powerOfTwo m.exponent).value
    .withSign negative (.ofValue value)

end Ngram
