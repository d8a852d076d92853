import Ngram.Settings

/-!
# Reports

What a run over some sentences has found: their scores in input order, the words that were scored
and the steps that it took. Reports of consecutive parts of a corpus are put one behind the other.
-/

namespace Ngram

/-- The outcome of a run. -/
structure Report where
  scores : Array Single := #[]
  /-- Words scored, the ends of sentences included. -/
  words : Nat := 0
  steps : Nat := 0
deriving DecidableEq, Inhabited

namespace Report

/-- The number of sentences. -/
def sentences (r : Report) : Nat := r.scores.size

/-- The sum of the scores, in order. -/
def total (r : Report) : Double := .sum (r.scores.toList.map Single.toDouble)

/-- Another report behind this one. -/
def extend (r other : Report) : Report :=
  ⟨r.scores ++ other.scores, r.words + other.words, r.steps + other.steps⟩

/-- Another report behind this one, if the numbers of words and steps fit 64 bits. -/
def extend? (r other : Report) : Except Error Report :=
  let r := r.extend other
  if r.words < 2 ^ 64 ∧ r.steps < 2 ^ 64 then .ok r else .error .outOfRange

/-- Reports of consecutive parts as one. -/
def concat (rs : List Report) : Report := rs.foldl extend {}

end Report

end Ngram
