import Ngram.Settings

/-!
# Cutting a corpus

A corpus is cut into parts of about the same length, each of which ends with the end of a sentence.
The `i`-th cut is looked for from the `i`-th fraction of the corpus on, but always behind the cut
before it; when no end of a sentence is left there, or only the last one, no further cut is made.
-/

namespace Ngram

/-- A part of a list, from `start` up to `stop`. -/
structure Span where
  start : Nat
  stop : Nat
deriving DecidableEq, Inhabited

/-- The words of a part. -/
def Span.slice (s : Span) (words : List Word) : List Word :=
  (words.drop s.start).take (s.stop - s.start)

namespace Partition

/-- The end of the first sentence that ends at `target` or later. -/
def cut? (words : List Word) (eos : Word) (target : Nat) : Option Nat :=
  ((words.drop (target - 1)).findIdx? (· == eos)).map (target + ·)

/-- The part that is left from `start` on. -/
def rest (length start : Nat) : List Span :=
  if start < length then [⟨start, length⟩] else []

/-- The parts from `start` on. There are `left` cuts still to be made; the next is number `i`. Its
fraction is worked out from a product of 64 bits, which wraps. -/
def spansFrom (words : List Word) (eos : Word) (length parts start i : Nat) : Nat → List Span
  | 0 => rest length start
  | left + 1 =>
    -- the end of a sentence that is looked for may be the last word in front of the target
    let target := max (length * i % 2 ^ 64 / parts) (start + 1)
    if length < target then rest length start
    else match cut? words eos target with
      | none => rest length start
      | some stop =>
        if length ≤ stop then rest length start
        else ⟨start, stop⟩ :: spansFrom words eos length parts stop (i + 1) left

end Partition

/-- The parts of a corpus, at most `parts` of them, or one if that is zero. -/
def corpusSpans (words : List Word) (eos : Word) (parts : Nat) : List Span :=
  Partition.spansFrom words eos words.length parts 0 1 (parts - 1)

/-- Cuts a corpus, if a list of as many parts as are asked for can be held, at 16 bytes for each. -/
def corpusSpans? (words : List Word) (eos : Word) (parts : Nat) : Except Error (List Span) :=
  if parts * 16 ≤ maxBytes then .ok (corpusSpans words eos parts) else .error .outOfRange

theorem corpusSpans?_of_room {parts : Nat} (hroom : parts * 16 ≤ maxBytes) (words : List Word)
    (eos : Word) : corpusSpans? words eos parts = .ok (corpusSpans words eos parts) :=
  if_pos hroom

end Ngram
