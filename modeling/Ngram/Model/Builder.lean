import Std.Data.HashMap
import Std.Data.HashSet
import Ngram.Model.Basic

/-!
# Building models

A builder collects n-grams with their weights; of two with the same words the later one counts. From
a collection `build` makes a model, or reports the first fault in a fixed order of checks: settings,
vocabulary, order, lengths, words, and from three words on that the suffix of every n-gram, the
n-gram without its oldest word, is there as well. A look-up walks along suffixes and could not reach
an n-gram past a gap.

The flags follow from the collection. A longer n-gram is recorded with its suffix, which is then not
independent to the left, and with its beginning, the n-gram without its newest word, whose state can
then be extended.
-/

namespace Ngram

/-- The weights of an n-gram as they are given. -/
structure GivenWeights where
  prob : Single
  backoff : Single
  rest : Single
deriving DecidableEq, Inhabited

theorem lengths_empty :
    ∀ g ∈ (∅ : Std.HashMap Gram GivenWeights), 0 < g.length ∧ g.length ≤ maxOrder := by simp

/-- Collected n-grams. -/
structure Builder where
  order : Nat
  vocabulary : Vocabulary
  grams : Std.HashMap Gram GivenWeights := ∅
  /-- The length of the first n-gram that is too short or too long for any model. -/
  rejected : Option Nat := none
  lengths : ∀ g ∈ grams, 0 < g.length ∧ g.length ≤ maxOrder := by exact lengths_empty

namespace Builder

/-- Adds an n-gram. -/
def add (b : Builder) (g : Gram) (weights : GivenWeights) : Builder :=
  if hg : 0 < g.length ∧ g.length ≤ maxOrder then
    { b with
      grams := b.grams.insert g weights
      lengths := fun g' hg' => by
        rcases Std.HashMap.mem_insert.1 hg' with heq | hmem
        · rw [← eq_of_beq heq]
          exact hg
        · exact b.lengths g' hmem }
  else { b with rejected := b.rejected.or (some g.length) }

/-- An n-gram was collected. -/
def contains (b : Builder) (g : Gram) : Bool := b.grams.contains g

/-- The collected n-grams of one length. -/
def ofLength (b : Builder) (length : Nat) : List (Gram × GivenWeights) :=
  b.grams.toList.filter fun e => e.1.length == length

/-- No collected n-gram is longer than the order. -/
def checkLengths (b : Builder) : Except Error Unit :=
  (List.range' 2 (maxOrder - 1)).forM fun length =>
    let count := (b.ofLength length).length
    if b.order < length ∧ 0 < count then
      .error (.model (.gramsTooLong count length b.order))
    else .ok ()

/-- A single word lies below the bound. -/
def checkUnigram (b : Builder) (g : Gram) : Except Error Unit :=
  match g.find? (b.vocabulary.bound ≤ ·) with
  | some word => .error (.model (.unigramOutside word b.vocabulary.bound))
  | none => .ok ()

/-- The words of an n-gram lie below the bound, and from three words on its suffix is there. -/
def checkGram (b : Builder) (g : Gram) : Except Error Unit :=
  match g.find? (b.vocabulary.bound ≤ ·) with
  | some word => .error (.model (.gramOutside word g b.vocabulary.bound))
  | none =>
    if 3 ≤ g.length ∧ !b.contains g.tail then .error (.model (.missingSuffix g)) else .ok ()

/-- The n-grams are checked by increasing length. -/
def checkGrams (b : Builder) : Except Error Unit := do
  (b.ofLength 1).forM fun e => b.checkUnigram e.1
  (List.range' 2 (b.order - 1)).forM fun length =>
    (b.ofLength length).forM fun e => b.checkGram e.1

/-- The order lies in the supported range, and no n-gram was rejected. -/
def checkOrder (b : Builder) : Except Error Unit :=
  if b.order = 0 ∨ maxOrder < b.order then .error (.model (.orderOutside b.order))
  else match b.rejected with
    | some length => .error (.model (.gramLength length))
    | none => .ok ()

/-- All checks, in the order in which they are reported. -/
def validate (b : Builder) (settings : TableSettings) : Except Error Unit := do
  settings.validate
  b.vocabulary.validate
  b.checkOrder
  b.checkLengths
  b.checkGrams

/-- The n-grams that a longer one ends in, and those that a longer one begins with. -/
structure Extensions where
  ended : Std.HashSet Gram
  begun : Std.HashSet Gram

/-- The collected n-grams of two words and more. -/
def longer (b : Builder) : List Gram := b.grams.keys.filter fun g => 1 < g.length

def extensions (b : Builder) : Extensions :=
  let longer := b.longer
  ⟨.ofList (longer.map List.tail), .ofList (longer.map List.dropLast)⟩

/-- A backoff that is not zero stands as it is given; a zero says by its sign whether the n-gram can
be extended. -/
def markBackoff (backoff : Single) (begun : Bool) : Single :=
  if !backoff.isZero then backoff else if begun then .zero else .negZero

/-- The stored weights of an n-gram. -/
def weights (x : Extensions) (g : Gram) (given : GivenWeights) : Weights :=
  .pack given.prob (markBackoff given.backoff (x.begun.contains g)) given.rest
    (!x.ended.contains g)

/-- The weights of words that have none of their own: those of the unknown word, or `-100`. -/
def fallback (b : Builder) : GivenWeights :=
  b.grams.getD [b.vocabulary.unknown] ⟨⟨0xc2c80000⟩, .zero, ⟨0xc2c80000⟩⟩

/-- The weights of all single words. -/
def unigrams (b : Builder) (x : Extensions) : Array Weights :=
  Array.ofFn fun i : Fin b.vocabulary.bound.toNat =>
    let g : Gram := [i.val.toUInt32]
    weights x g (b.grams.getD g b.fallback)

/-- The filled table of one order. -/
def table {α : Type} [Entry α] (b : Builder) (settings : TableSettings) (length : Nat)
    (entry : Gram → GivenWeights → α) : Except Error (Table α) := do
  let grams := b.ofLength length
  let table ← Table.forEntries grams.length settings
  table.insertAll (grams.map fun e => entry e.1 e.2)

def middleTables (b : Builder) (settings : TableSettings) (x : Extensions) :
    Except Error (List (Table MiddleEntry)) :=
  (List.range' 2 (b.order - 2)).mapM fun length =>
    b.table settings length fun g given => { key := g.key, weights := weights x g given }

/-- The table of the highest order; a model of order one has an empty one. -/
def longestTable (b : Builder) (settings : TableSettings) : Except Error (Table LongestEntry) :=
  if 1 < b.order then
    b.table settings b.order fun g given => { key := g.key, prob := given.prob }
  else Table.forEntries 0 settings

/-- Checks the collection and fills the tables of a model. -/
def build (b : Builder) (settings : TableSettings) : Except Error Model := do
  b.validate settings
  let x := b.extensions
  let middle ← b.middleTables settings x
  let longest ← b.longestTable settings
  let store ← Store.ofTables b.order (b.unigrams x) middle.toArray longest
  Model.ofParts b.vocabulary store

end Builder

end Ngram
