import Ngram.Number.Ieee

/-!
# Random draws

What a workload asks of chance, each with the range that the answer lies in, and how it is answered
from a stream of random words. What a workload promises holds for any answers within these ranges; a
stream that is the same again for the same seed makes the workload the same again, too.
-/

namespace Ngram

/-- A source of random values with state `σ`. -/
structure Draws (σ : Type) where
  /-- One of the numbers below `n + 1`. -/
  upTo : (n : Nat) → σ → Fin (n + 1) × σ
  /-- A fraction, from zero to below one. -/
  fraction : σ → Double × σ
  /-- A weight, from `low` to below `high`. -/
  weight : (low high : Single) → σ → Single × σ
  /-- Whether something of a given probability happens. -/
  chance : Double → σ → Bool × σ

namespace Draws

variable {σ : Type}

/-- Draws `n` times behind what was drawn already. -/
def repeatInto {α : Type} (draw : σ → α × σ) : Nat → Array α → σ → Array α × σ
  | 0, done, s => (done, s)
  | n + 1, done, s => let (a, s) := draw s; repeatInto draw n (done.push a) s

/-- Draws `n` times. -/
def times {α : Type} (n : Nat) (draw : σ → α × σ) (s : σ) : Array α × σ :=
  repeatInto draw n #[] s

/-! ## From words of 32 bits -/

section Words

variable (next : σ → UInt32 × σ)

/-- Two words as one of 64 bits, the lower half first. -/
def wide (s : σ) : UInt64 × σ :=
  let (low, s) := next s
  let (high, s) := next s
  (high.toUInt64 <<< 32 ||| low.toUInt64, s)

/-- A number below `base` is scaled to `range`. Where the remainder is near to `base`, the whole
part has room for one more. -/
theorem succ_div_lt_of_lt_mod {base range x : Nat} (hx : x < base)
    (h : base - range < x * range % base) : x * range / base + 1 < range := by
  have top : x * range + range ≤ base * range := by
    have := Nat.mul_le_mul_right range hx
    rwa [Nat.succ_mul] at this
  have split := Nat.div_add_mod (x * range) base
  generalize x * range = p at *
  apply Nat.lt_of_not_le
  intro full
  have := Nat.mul_le_mul_left base full
  rw [Nat.mul_add, Nat.mul_one] at this
  omega

/-- One of the numbers below `n + 1`: the whole part of a scaled number below `base`. Where the
remainder is near to `base`, a second number is scaled to the places behind it and may carry over.
All numbers are nearly equally likely, and none is ever refused. -/
def scaled {base : Nat} (draw : σ → Fin base × σ) (n : Nat) (s : σ) : Fin (n + 1) × σ :=
  let (x, s) := draw s
  if h : base - (n + 1) < x.val * (n + 1) % base then
    have room := succ_div_lt_of_lt_mod x.isLt h
    let (y, s) := draw s
    if base ≤ x.val * (n + 1) % base + y.val * (n + 1) / base then
      (⟨x.val * (n + 1) / base + 1, room⟩, s)
    else (⟨x.val * (n + 1) / base, Nat.lt_of_succ_lt room⟩, s)
  else
    (⟨x.val * (n + 1) / base,
      Nat.div_lt_of_lt_mul (Nat.mul_lt_mul_of_pos_right x.isLt n.succ_pos)⟩, s)

/-- Numbers of up to 32 bits take one word, or two; greater numbers take double words. -/
def wordsUpTo (n : Nat) (s : σ) : Fin (n + 1) × σ :=
  if n < 2 ^ 32 then scaled (fun s => let (x, s) := next s; (x.toFin, s)) n s
  else scaled (fun s => let (x, s) := wide next s; (x.toFin, s)) n s

/-- The top 53 of 64 bits as a fraction. -/
def wordsFraction (s : σ) : Double × σ :=
  let (x, s) := wide next s
  (.ofValue ((x >>> 11).toFloat / 9007199254740992.0), s)

/-- The top 23 bits of a word as a fraction of the range. Should the sum be rounded up to the end of
the range, its beginning is taken. -/
def wordsWeight (low high : Single) (s : σ) : Single × σ :=
  let (x, s) := next s
  let v := low.value + (high.value - low.value) * ((x >>> 9).toFloat32 / 8388608.0)
  (.ofValue (if v < high.value then v else low.value), s)

/-- What is certain takes no word. Anything else happens if 64 bits, as a fraction, are below its
probability. -/
def wordsChance (p : Double) (s : σ) : Bool × σ :=
  if p.value == 1.0 then (true, s)
  else
    let (x, s) := wide next s
    (x < (p.value * 18446744073709551616.0).toUInt64, s)

/-- Draws from a stream of random words. -/
def ofWords : Draws σ where
  upTo := wordsUpTo next
  fraction := wordsFraction next
  weight := wordsWeight next
  chance := wordsChance next

end Words

end Draws

end Ngram
