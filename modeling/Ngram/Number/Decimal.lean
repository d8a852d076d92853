import Ngram.Number.Ieee

/-!
# Decimal text of binary numbers

The written form of a number is positional and as short as it can be: the fewest digits that read
back to the same number, of those the nearest, never an exponent, no point after a whole number.
The digits are found in exact arithmetic. A finite number is `m · 2^e`; the reals that round to it
form an interval around it, whose ends belong to it when `m` is even. On the grid of multiples of
`10^k` only the two neighbours of the number can be the nearest hit, so the search walks down from
the coarsest grid and takes the first one with a neighbour inside the interval.

A second form has a fixed number of places, a half going to the even neighbour. Reading a decimal
numeral rounds its exact value once, ties to even.
-/

namespace Ngram

namespace Decimal

/-- The number of decimal digits of `n`; zero has one. -/
def width (n : Nat) : Nat := (Nat.toDigits 10 n).length

/-- The decimal digits of `n`. -/
def digits (n : Nat) : String := String.ofList (Nat.toDigits 10 n)

/-- A quotient rounded to the nearest integer, a half to the even one. -/
def roundEven (num den : Nat) : Nat :=
  let q := num / den
  let r := num % den
  if den < 2 * r || (2 * r == den && q % 2 == 1) then q + 1 else q

/-- A magnitude as a quotient of two integers. -/
def ratio (x : Magnitude) : Nat × Nat :=
  if 0 ≤ x.exponent then (x.mantissa * 2 ^ x.exponent.toNat, 1)
  else (x.mantissa, 2 ^ (-x.exponent).toNat)

/-- One multiple of a power of ten tested against the interval of `x`. The grid is `10^k`; all three
quantities are brought to integers by the same factor. -/
def inside (x : Magnitude) (k : Int) (n : Nat) : Bool :=
  let (two, one) : Nat × Nat :=
    if 0 ≤ x.exponent then (2 ^ x.exponent.toNat, 1) else (1, 2 ^ (-x.exponent).toNat)
  let (ten, unit) : Nat × Nat :=
    if 0 ≤ k then (10 ^ k.toNat, 1) else (1, 10 ^ (-k).toNat)
  -- four times everything, so that half of a half gap is whole
  let point := 4 * n * ten * one
  let low := (4 * x.mantissa - (if x.narrow then 1 else 2)) * two * unit
  let high := (4 * x.mantissa + 2) * two * unit
  if x.mantissa % 2 == 0 then low ≤ point && point ≤ high else low < point && point < high

/-- The number over the grid of `10^k`, as a quotient. -/
def onGrid (x : Magnitude) (k : Int) : Nat × Nat :=
  let (num, den) := ratio x
  if 0 ≤ k then (num, den * 10 ^ k.toNat) else (num * 10 ^ (-k).toNat, den)

/-- The better of the two neighbours of `x` on the grid of `10^k`, if one lies in the interval.
Of two that do the nearer is taken, and the upper one of an exact tie. -/
def neighbour? (x : Magnitude) (k : Int) : Option Nat :=
  let (num, den) := onGrid x k
  let low := num / den
  let upperNearer := den ≤ 2 * (num % den)
  match inside x k low, inside x k (low + 1) with
  | true, true => some (if upperNearer then low + 1 else low)
  | true, false => some low
  | false, true => some (low + 1)
  | false, false => none

/-- Walks `steps` grids down from `10^k` to the first one with a hit. -/
def firstGrid (x : Magnitude) (k : Int) : Nat → Nat × Int
  | 0 => ((onGrid x k).1 / (onGrid x k).2, k)
  | steps + 1 =>
    match neighbour? x k with
    | some n => (n, k)
    | none => firstGrid x (k - 1) steps

/-- The shortest digits of a non-zero magnitude, and the power of ten that they count. Seventeen
digits always suffice, and the first grid is at most two too coarse. -/
def shortest (x : Magnitude) : Nat × Int :=
  let (num, den) := ratio x
  firstGrid x ((width num : Int) - width den + 1) 20

/-- Writes `n · 10^k` without an exponent. -/
def positional (n : Nat) (k : Int) : String :=
  let ds := Nat.toDigits 10 n
  if 0 ≤ k then String.ofList (ds ++ List.replicate k.toNat '0')
  else
    let places := (-k).toNat
    let padded := List.replicate (places + 1 - ds.length) '0' ++ ds
    let whole := padded.length - places
    String.ofList (padded.take whole ++ '.' :: padded.drop whole)

/-- The sign in front of a number. -/
def sign (negative : Bool) : String := if negative then "-" else ""

/-- The shortest written form of a number. -/
def text : Reading → String
  | .nan => "NaN"
  | .infinite negative => sign negative ++ "inf"
  | .finite negative x =>
    if x.mantissa == 0 then sign negative ++ "0"
    else let (n, k) := shortest x; sign negative ++ positional n k

/-- The form with a fixed number of places. -/
def fixed (places : Nat) : Reading → String
  | .nan => "NaN"
  | .infinite negative => sign negative ++ "inf"
  | .finite negative x =>
    let (num, den) := ratio x
    let n := roundEven (num * 10 ^ places) den
    sign negative ++ (if places == 0 then digits n else positional n (-places))

/-- The binary32 pattern nearest to `num / den`, ties to even; too large a quotient is infinity. -/
def nearestSingle (num den : Nat) : UInt32 :=
  if num == 0 then 0
  else
    let guess : Int := (num.log2 : Int) - den.log2 - 23
    let quotient (e : Int) : Nat × Nat :=
      if 0 ≤ e then (num, den * 2 ^ e.toNat) else (num * 2 ^ (-e).toNat, den)
    let (n, d) := quotient guess
    let e := max (if n / d < 2 ^ 23 then guess - 1 else guess) (-149)
    let (n, d) := quotient e
    -- rounding up to the next power of two runs over into the exponent field, which is right
    let m := roundEven n d
    let bits := if m < 2 ^ 23 then m else (e + 149).toNat * 2 ^ 23 + m
    if bits < 0x7f800000 then bits.toUInt32 else 0x7f800000

/-- The value of a run of digits. -/
def value (ds : List Char) : Nat :=
  ds.foldl (fun n c => 10 * n + (c.toNat - '0'.toNat)) 0

/-- A numeral of digits alone, with an optional plus sign. -/
def parseNat? (s : String) : Option Nat :=
  let ds := match s.toList with
    | '+' :: ds => ds
    | ds => ds
  if ds.isEmpty || !ds.all Char.isDigit then none else some (value ds)

/-- The exponent of a decimal numeral: nothing, or an `e` with a signed run of digits. -/
def parseExponent? : List Char → Option Int
  | [] => some 0
  | c :: cs =>
    if c != 'e' && c != 'E' then none
    else
      let (negative, ds) := match cs with
        | '-' :: ds => (true, ds)
        | '+' :: ds => (false, ds)
        | ds => (false, ds)
      if ds.isEmpty || !ds.all Char.isDigit then none
      else some (if negative then -(value ds : Int) else value ds)

/-- Reads an unsigned decimal numeral: digits with an optional point and exponent, at least one
digit in front of the exponent, or a name of infinity or of no number in any case. -/
def parseMagnitude? (cs : List Char) : Option UInt32 :=
  match String.ofList (cs.map Char.toLower) with
  | "inf" | "infinity" => some 0x7f800000
  | "nan" => some 0x7fc00000
  | _ =>
    let whole := cs.takeWhile Char.isDigit
    let rest := cs.dropWhile Char.isDigit
    let (places, rest) := match rest with
      | '.' :: rest => (rest.takeWhile Char.isDigit, rest.dropWhile Char.isDigit)
      | rest => ([], rest)
    if whole.isEmpty && places.isEmpty then none
    else (parseExponent? rest).map fun e =>
      let ds := (whole ++ places).dropWhile (· == '0')
      let k : Int := e - places.length
      -- far outside the range of the format the power of ten is not worked out
      if ds.isEmpty || k + ds.length < -60 then 0
      else if 60 < k + ds.length then 0x7f800000
      else if 0 ≤ k then nearestSingle (value ds * 10 ^ k.toNat) 1
      else nearestSingle (value ds) (10 ^ (-k).toNat)

/-- Reads a decimal numeral with an optional sign. -/
def parseSingle? (s : String) : Option Single :=
  match s.toList with
  | '-' :: cs => (parseMagnitude? cs).map fun bits => ⟨bits ||| 0x80000000⟩
  | '+' :: cs => (parseMagnitude? cs).map Single.mk
  | cs => (parseMagnitude? cs).map Single.mk

end Decimal

/-- The shortest written form of a binary32 number. -/
def Single.text (x : Single) : String := Decimal.text x.reading

/-- The shortest written form of a binary64 number. -/
def Double.text (x : Double) : String := Decimal.text x.reading

/-- A binary64 number with a fixed number of places. -/
def Double.fixed (places : Nat) (x : Double) : String := Decimal.fixed places x.reading

end Ngram
