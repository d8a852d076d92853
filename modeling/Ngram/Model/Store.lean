import Ngram.Hash.Key
import Ngram.Hash.TableImage
import Ngram.Model.Weights

/-!
# Stored n-grams

The n-grams of a model are kept by their order: an array of weights for the single words, one probe
table for each order in between, and one for the highest order, which needs a probability only.

A look-up walks from order to order. It holds a *node*, the key of the words taken so far; above the
single words every order is asked in two phases, `locate` (take one more word and work out the home
bucket) and `complete` (scan the buckets). Words and orders that do not exist are the caller's
fault.
-/

namespace Ngram

/-- What is found at one order, flags decoded. -/
structure Hit where
  prob : Single
  backoff : Single
  rest : Single
  independentLeft : Bool
  /-- The node of the n-gram, from which a match can be extended to the left. -/
  extendLeft : UInt64
deriving DecidableEq, Inhabited

/-- The hit of an n-gram with given weights at a node. -/
def Weights.hit (w : Weights) (node : UInt64) : Hit :=
  ⟨w.prob, w.backoff, w.rest, w.independentLeft, node⟩

/-- The n-grams of a model of a given order. -/
structure Store where
  order : Nat
  unigrams : Array Weights
  /-- The tables of orders two up to the highest, exclusive. -/
  middle : Array (Table MiddleEntry)
  /-- The table of the highest order. It is there, but not asked, when that order is one. -/
  longest : Table LongestEntry
  order_pos : 0 < order
  order_le : order ≤ maxOrder
  middle_size : middle.size = order - 2
  unigrams_pos : 0 < unigrams.size
  unigrams_lt : unigrams.size < 2 ^ 32

namespace Store

/-- Puts a store together from its tables. The order is checked first, then the number of tables,
then that of the single words. -/
def ofTables (order : Nat) (unigrams : Array Weights) (middle : Array (Table MiddleEntry))
    (longest : Table LongestEntry) : Except Error Store :=
  if ho : 0 < order ∧ order ≤ maxOrder then
    if hm : middle.size = order - 2 then
      if hu : 0 < unigrams.size ∧ unigrams.size < 2 ^ 32 then
        .ok ⟨order, unigrams, middle, longest, ho.1, ho.2, hm, hu.1, hu.2⟩
      else .error (.model (.unigramCount unigrams.size))
    else .error (.model (.middleTables order (order - 2) middle.size))
  else .error (.model (.orderOutside order))

/-- A store is put together again from its tables. -/
theorem ofTables_eq_ok_iff {order : Nat} {unigrams : Array Weights}
    {middle : Array (Table MiddleEntry)} {longest : Table LongestEntry} {s : Store} :
    ofTables order unigrams middle longest = .ok s ↔
      s.order = order ∧ s.unigrams = unigrams ∧ s.middle = middle ∧ s.longest = longest := by
  constructor
  · intro h
    unfold ofTables at h
    split at h
    next =>
      split at h
      next =>
        split at h
        next =>
          cases h
          exact ⟨rfl, rfl, rfl, rfl⟩
        next => cases h
      next => cases h
    next => cases h
  · intro h
    obtain ⟨rfl, rfl, rfl, rfl⟩ := h
    rw [ofTables, dif_pos ⟨s.order_pos, s.order_le⟩, dif_pos s.middle_size,
      dif_pos ⟨s.unigrams_pos, s.unigrams_lt⟩]

/-- The bound of the words that have weights. -/
def bound (s : Store) : Word := s.unigrams.size.toUInt32

/-- The weights of a single word, and its node. -/
def unigram (s : Store) (word : Word) : Except Error Hit :=
  match s.unigrams[word.toNat]? with
  | some w => .ok (w.hit word.toUInt64)
  | none => .error .outOfRange

/-- The first phase at order `level + 2`: the node with one more word, and its home bucket. -/
def locate (s : Store) (level : Nat) (node : UInt64) (word : Word) : Except Error (UInt64 × Nat) :=
  match s.middle[level]? with
  | some t => let node := combine node word; .ok (node, t.locate node)
  | none => .error .outOfRange

/-- The second phase at order `level + 2`. -/
def complete (s : Store) (level : Nat) (node : UInt64) (cursor : Nat) :
    Except Error (Option Hit) :=
  match s.middle[level]? with
  | some t => .ok ((t.complete node cursor).map fun e => e.weights.hit node)
  | none => .error .outOfRange

/-- The probability at the highest order, with one more word behind a node. -/
def longestProb (s : Store) (node : UInt64) (word : Word) : Option Single :=
  (s.longest.find (combine node word)).map LongestEntry.prob

/-- The number of n-grams at each order, single words first. -/
def counts (s : Store) : List Nat :=
  s.unigrams.size :: s.middle.toList.map Table.count ++
    if 1 < s.order then [s.longest.count] else []

end Store

end Ngram
