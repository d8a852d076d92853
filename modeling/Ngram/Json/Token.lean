import Ngram.Bytes

/-!
# Tokens of JSON

A text is cut into marks, names, strings and numerals, with blanks in between. A string is kept as
the pieces that were written, bytes and escaped 16-bit units, because whether they make up a text
matters only to whoever uses the string; a numeral is kept as its digits, because its value depends
on the type of number that is asked for.

Each token takes at least one byte, and `token?_length` is what makes the whole scan end.
-/

namespace Ngram.Json

/-- A part of a string as it was written. -/
inductive Piece where
  | byte (b : UInt8)
  | unit (u : UInt16)
deriving DecidableEq, Inhabited

/-- The digits of a numeral. `places` and `exponent` are what stood behind the point and the `e`. -/
structure Numeral where
  negative : Bool
  whole : List Nat
  places : Option (List Nat) := none
  exponent : Option (Bool × List Nat) := none
deriving DecidableEq, Inhabited

inductive Token where
  | openList
  | closeList
  | openObject
  | closeObject
  | comma
  | colon
  | null
  | bool (b : Bool)
  | numeral (n : Numeral)
  | string (pieces : List Piece)
deriving DecidableEq, Inhabited

/-- The byte of an ASCII character. -/
def ascii (c : Char) : UInt8 := c.toNat.toUInt8

def isBlank (b : UInt8) : Bool :=
  b == ascii ' ' || b == ascii '\n' || b == ascii '\t' || b == ascii '\r'

def isDigit (b : UInt8) : Bool := ascii '0' ≤ b && b ≤ ascii '9'

def digit (b : UInt8) : Nat := b.toNat - '0'.toNat

/-- The value of a hexadecimal digit. -/
def hexDigit? (b : UInt8) : Option UInt16 :=
  if isDigit b then some (b - ascii '0').toUInt16
  else if ascii 'a' ≤ b && b ≤ ascii 'f' then some (b - ascii 'a' + 10).toUInt16
  else if ascii 'A' ≤ b && b ≤ ascii 'F' then some (b - ascii 'A' + 10).toUInt16
  else none

/-- The unit that four hexadecimal digits stand for. -/
def unit? (a b c d : UInt8) : Option UInt16 := do
  let a ← hexDigit? a
  let b ← hexDigit? b
  let c ← hexDigit? c
  let d ← hexDigit? d
  some (((a * 16 + b) * 16 + c) * 16 + d)

/-- The byte that a letter behind a backslash stands for. -/
def escaped? (b : UInt8) : Option UInt8 :=
  [('"', 0x22), ('\\', 0x5c), ('/', 0x2f), ('b', 0x08), ('f', 0x0c), ('n', 0x0a), ('r', 0x0d),
    ('t', 0x09)].findSome? fun (c, v) => if b == ascii c then some v else none

/-- Reads a string up to its closing quote, whose opening quote has been read. Characters below the
blank have to be escaped. `done` holds the pieces read so far in reverse. -/
def string? (done : List Piece) : Bytes → Option (List Piece × Bytes)
  | [] => none
  | b :: bs =>
    if b == 0x22 then some (done.reverse, bs)
    else if b == 0x5c then
      match bs with
      | [] => none
      | e :: bs =>
        if e == ascii 'u' then
          match bs with
          | h₁ :: h₂ :: h₃ :: h₄ :: bs =>
            match unit? h₁ h₂ h₃ h₄ with
            | some u => string? (.unit u :: done) bs
            | none => none
          | _ => none
        else match escaped? e with
          | some b => string? (.byte b :: done) bs
          | none => none
    else if b < 0x20 then none
    else string? (.byte b :: done) bs

/-- A run of digits and what follows it. -/
def digits (bs : Bytes) : List Nat × Bytes :=
  ((bs.takeWhile isDigit).map digit, bs.dropWhile isDigit)

/-- The places of a numeral, if there is a point. There has to be a digit behind it. -/
def places? : Bytes → Option (Option (List Nat) × Bytes)
  | [] => some (none, [])
  | b :: bs =>
    if b == ascii '.' then
      if (digits bs).1.isEmpty then none else some (some (digits bs).1, (digits bs).2)
    else some (none, b :: bs)

/-- The sign of an exponent. -/
def exponentSign : Bytes → Bool × Bytes
  | [] => (false, [])
  | b :: bs =>
    if b == ascii '-' then (true, bs) else if b == ascii '+' then (false, bs) else (false, b :: bs)

/-- The exponent of a numeral, if there is one. There has to be a digit in it. -/
def exponent? : Bytes → Option (Option (Bool × List Nat) × Bytes)
  | [] => some (none, [])
  | b :: bs =>
    if b == ascii 'e' || b == ascii 'E' then
      let signed := exponentSign bs
      let ds := digits signed.2
      if ds.1.isEmpty then none else some (some (signed.1, ds.1), ds.2)
    else some (none, b :: bs)

/-- The digits in front of the point. There is one at least, and a leading zero stands alone. -/
def whole? (bs : Bytes) : Option (List Nat × Bytes) :=
  match (digits bs).1 with
  | [] => none
  | 0 :: _ :: _ => none
  | d :: ds => some (d :: ds, (digits bs).2)

/-- Reads a numeral whose sign has been read. -/
def numeral? (negative : Bool) (bs : Bytes) : Option (Numeral × Bytes) :=
  match whole? bs with
  | none => none
  | some (whole, bs) =>
    match places? bs with
    | none => none
    | some (places, bs) =>
      match exponent? bs with
      | none => none
      | some (exponent, bs) => some (⟨negative, whole, places, exponent⟩, bs)

/-- The tokens of one byte. -/
def mark? (b : UInt8) : Option Token :=
  [(0x5b, Token.openList), (0x5d, .closeList), (0x7b, .openObject), (0x7d, .closeObject),
    (0x2c, .comma), (0x3a, .colon)].lookup b

/-- The tokens that are names. -/
def names : List (Bytes × Token) :=
  [("null", Token.null), ("true", .bool true), ("false", .bool false)].map fun (name, t) =>
    (name.toList.map ascii, t)

/-- Reads a name, whose first byte is `b`. -/
def name? (b : UInt8) (bs : Bytes) : Option (Token × Bytes) :=
  names.findSome? fun (name, t) =>
    if name.take 1 = [b] ∧ bs.take (name.length - 1) = name.drop 1
    then some (t, bs.drop (name.length - 1)) else none

/-- Reads a token that starts with a given byte. -/
def token? (b : UInt8) (bs : Bytes) : Option (Token × Bytes) :=
  match mark? b with
  | some t => some (t, bs)
  | none =>
    if b == 0x22 then (string? [] bs).map (Prod.map .string id)
    else if b == ascii '-' then (numeral? true bs).map (Prod.map .numeral id)
    else if isDigit b then (numeral? false (b :: bs)).map (Prod.map .numeral id)
    else name? b bs

theorem string?_length {done pieces : List Piece} {bs rest : Bytes}
    (h : string? done bs = some (pieces, rest)) : rest.length < bs.length := by
  fun_induction string? done bs <;> simp_all <;> grind

theorem digits_length (bs : Bytes) : (digits bs).2.length ≤ bs.length :=
  (List.dropWhile_suffix isDigit).length_le

theorem digits_length_lt {bs : Bytes} (h : (digits bs).1 ≠ []) :
    (digits bs).2.length < bs.length := by
  cases bs with
  | nil => exact absurd rfl h
  | cons b bs =>
    have := digits_length bs
    simp only [digits, List.takeWhile_cons, List.dropWhile_cons] at this h ⊢
    split
    next => exact Nat.lt_succ_of_le this
    next hb => simp [hb] at h

theorem places?_length {bs rest : Bytes} {ds : Option (List Nat)}
    (h : places? bs = some (ds, rest)) : rest.length ≤ bs.length := by
  unfold places? at h
  split at h
  next => cases h; exact Nat.le_refl _
  next b bs =>
    have := digits_length bs
    split at h
    next =>
      split at h
      next => cases h
      next => cases h; exact Nat.le_succ_of_le this
    next => cases h; exact Nat.le_refl _

theorem exponentSign_length (bs : Bytes) : (exponentSign bs).2.length ≤ bs.length := by
  unfold exponentSign
  split
  next => exact Nat.le_refl _
  next =>
    split
    next => exact Nat.le_succ _
    next =>
      split
      next => exact Nat.le_succ _
      next => exact Nat.le_refl _

theorem exponent?_length {bs rest : Bytes} {e : Option (Bool × List Nat)}
    (h : exponent? bs = some (e, rest)) : rest.length ≤ bs.length := by
  unfold exponent? at h
  split at h
  next => cases h; exact Nat.le_refl _
  next b bs =>
    have h₁ := exponentSign_length bs
    have h₂ := digits_length (exponentSign bs).2
    split at h
    next =>
      dsimp only at h
      split at h
      next => cases h
      next => cases h; exact Nat.le_succ_of_le (Nat.le_trans h₂ h₁)
    next => cases h; exact Nat.le_refl _

theorem whole?_length {bs rest : Bytes} {ds : List Nat} (h : whole? bs = some (ds, rest)) :
    rest.length < bs.length := by
  unfold whole? at h
  split at h
  next => cases h
  next => cases h
  next hd => cases h; exact digits_length_lt (by rw [hd]; simp)

theorem numeral?_length {negative : Bool} {bs rest : Bytes} {n : Numeral}
    (h : numeral? negative bs = some (n, rest)) : rest.length < bs.length := by
  unfold numeral? at h
  split at h
  next => cases h
  next hw =>
    split at h
    next => cases h
    next hp =>
      split at h
      next => cases h
      next he =>
        cases h
        exact Nat.lt_of_le_of_lt (exponent?_length he)
          (Nat.lt_of_le_of_lt (places?_length hp) (whole?_length hw))

theorem name?_length {b : UInt8} {bs rest : Bytes} {t : Token}
    (h : name? b bs = some (t, rest)) : rest.length ≤ bs.length := by
  obtain ⟨⟨name, t'⟩, _, h⟩ := List.exists_of_findSome?_eq_some h
  dsimp only at h
  split at h
  next => cases h; rw [List.length_drop]; exact Nat.sub_le _ _
  next => cases h

theorem of_map_map {α : Type} {r : Option (α × Bytes)} {f : α → Token} {t : Token} {rest : Bytes}
    (h : r.map (Prod.map f id) = some (t, rest)) : ∃ a, r = some (a, rest) := by
  obtain ⟨⟨a, rest'⟩, ha, hr⟩ := Option.map_eq_some_iff.1 h
  cases hr
  exact ⟨a, ha⟩

/-- What follows a token is no longer than what follows its first byte. -/
theorem token?_length {b : UInt8} {bs rest : Bytes} {t : Token}
    (h : token? b bs = some (t, rest)) : rest.length ≤ bs.length := by
  unfold token? at h
  split at h
  next => cases h; exact Nat.le_refl _
  next =>
    split at h
    next => exact Nat.le_of_lt (string?_length (of_map_map h).choose_spec)
    next =>
      split at h
      next => exact Nat.le_of_lt (numeral?_length (of_map_map h).choose_spec)
      next =>
        split at h
        next => exact Nat.le_of_lt_succ (numeral?_length (of_map_map h).choose_spec)
        next => exact name?_length h

/-- Cuts a text into its tokens; `done` holds those already found in reverse. -/
def tokensOnto (done : List Token) : Bytes → Option (List Token)
  | [] => some done.reverse
  | b :: bs =>
    if isBlank b then tokensOnto done bs
    else match _h : token? b bs with
      | some (t, rest) => tokensOnto (t :: done) rest
      | none => none
termination_by bs => bs.length
decreasing_by
  · exact Nat.lt_succ_self _
  · exact Nat.lt_succ_of_le (token?_length _h)

/-- Cuts a text into its tokens. -/
def tokens? (bs : Bytes) : Option (List Token) := tokensOnto [] bs

end Ngram.Json
