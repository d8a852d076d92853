import Ngram.Model.Store

/-!
# States and scores

A state is what one word hands on to the next: the words that can still matter, most recent first,
and for each length of context the backoff of the n-gram that they form. Only the first `length`
places count; what stands behind them is left over from earlier words and is never read.
-/

namespace Ngram

/-- The context of the next word. `backoffs[i]` belongs to the n-gram of the first `i + 1` words. -/
structure State where
  words : Vector Word contextSize
  backoffs : Vector Single contextSize
  length : Nat
deriving DecidableEq

namespace State

/-- The state with no context. -/
def empty : State := ⟨Vector.replicate _ 0, Vector.replicate _ .zero, 0⟩

instance : Inhabited State := ⟨empty⟩

/-- The words that count, most recent first. -/
def context (s : State) : Except Error (List Word) :=
  if s.length ≤ contextSize then .ok (s.words.toList.take s.length) else .error .outOfRange

/-- What a match of a given length owes: the backoffs of every longer context, added in increasing
length onto `+0.0`. -/
def backoffFrom (s : State) (matched : Nat) : Except Error Single :=
  if matched - 1 < s.length then
    if s.length ≤ contextSize then
      .ok (((s.backoffs.toList.take s.length).drop (matched - 1)).foldl (· + ·) .zero)
    else .error .outOfRange
  else .ok .zero

end State

/-- What is known about one word in its context. -/
structure Score where
  /-- The logarithm of the probability. -/
  prob : Single
  /-- The rest cost of the n-gram that was matched. -/
  rest : Single
  /-- The length of the longest match. -/
  matched : Nat
  /-- No further context can make the match longer. -/
  independentLeft : Bool
  /-- The node of the longest match below the highest order. -/
  extendLeft : UInt64
deriving DecidableEq

namespace Score

/-- The score of nothing. -/
def none : Score := ⟨.zero, .zero, 0, false, 0⟩

instance : Inhabited Score := ⟨none⟩

/-- The score at a single word or a longer n-gram that was found. -/
def ofHit (hit : Hit) (matched : Nat) : Score :=
  ⟨hit.prob, hit.rest, matched, hit.independentLeft, hit.extendLeft⟩

end Score

end Ngram
