import Ngram.Bytes

/-!
# Words as bytes

A corpus is a flat list of word ids, all of the same width and little-endian, so that it can be cut
anywhere between two words without being read. The width is the least that holds every id of the
vocabulary.
-/

namespace Ngram

/-- The bytes that a word takes in a corpus. -/
inductive WordWidth where
  | one
  | two
  | four
  | eight
deriving DecidableEq, Inhabited

namespace WordWidth

/-- The number of bytes. -/
def bytes : WordWidth → Nat
  | one => 1
  | two => 2
  | four => 4
  | eight => 8

/-- The least width that holds every number below a bound. -/
def forBound (bound : Nat) : WordWidth :=
  if bound ≤ 2 ^ 8 then one
  else if bound ≤ 2 ^ 16 then two
  else if bound ≤ 2 ^ 32 then four
  else eight

/-- The largest number of a width. -/
def maxValue (w : WordWidth) : Nat := 2 ^ (8 * w.bytes) - 1

/-- A number read from a corpus as a word. -/
def toWord (value : Nat) : Except Error Word :=
  if value < 2 ^ 32 then .ok value.toUInt32 else .error (.input (.wordTooLarge value))

/-- Writes one word. -/
def encodeWord (w : WordWidth) (word : Word) : Except Error Bytes :=
  if word.toNat ≤ w.maxValue then .ok (Bytes.ofNat w.bytes word.toNat)
  else .error (.input (.wordTooWide word w.bytes))

/-- Writes words behind those already written, which are held in reverse. -/
def encodeOnto (w : WordWidth) (done : Bytes) : List Word → Except Error Bytes
  | [] => .ok done.reverse
  | word :: words =>
    match w.encodeWord word with
    | .ok bs => encodeOnto w (bs.reverse ++ done) words
    | .error e => .error e

/-- Writes words. -/
def encode (w : WordWidth) (words : List Word) : Except Error Bytes := w.encodeOnto [] words

theorem bytes_pos (w : WordWidth) : 0 < w.bytes := by cases w <;> decide

/-- Reads words behind those already read, which are held in reverse. A rest that is shorter than a
word is left out. -/
def decodeOnto (w : WordWidth) (done : List Word) (bs : Bytes) : Except Error (List Word) :=
  match _h : Bytes.take? w.bytes bs with
  | none => .ok done.reverse
  | some (front, rest) =>
    match toWord (Bytes.toNat front) with
    | .ok word => decodeOnto w (word :: done) rest
    | .error e => .error e
termination_by bs.length
decreasing_by
  have := Bytes.length_of_take? _h
  have := w.bytes_pos
  omega

/-- Reads words. The number of bytes has to be a multiple of the width. -/
def decode (w : WordWidth) (bs : Bytes) : Except Error (List Word) :=
  if bs.length % w.bytes = 0 then w.decodeOnto [] bs
  else .error (.input (.raggedLength bs.length w.bytes))

end WordWidth

/-- The width of a corpus over a vocabulary with a given bound. -/
def widthOf (bound : Word) : WordWidth := .forBound bound.toNat

end Ngram
