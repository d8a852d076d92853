import Ngram.Model.Builder

/-!
# Collections visited in any order

A collection is a hash map, and the order in which its n-grams are visited is up to the map. It
decides which of several faults is reported, and in which order the tables are filled. `Visit.build`
makes a model in any order, and what `build` does is the case of the map's own one (`build_own`).

> `perm_ofLength`: the n-grams of one length are the same ones in every order.
> `weights_extensions`: so are the flags that follow from the collection.
-/

namespace Ngram

namespace Builder

/-- The stored weights depend on which n-grams are longer ones' ends and beginnings only. -/
theorem weights_congr {x x' : Extensions} (hended : ∀ g, x.ended.contains g = x'.ended.contains g)
    (hbegun : ∀ g, x.begun.contains g = x'.begun.contains g) : weights x = weights x' := by
  funext g given
  rw [weights, weights, hended, hbegun]

/-- An order in which the n-grams of a collection are visited. -/
structure Visit (b : Builder) where
  entries : List (Gram × GivenWeights)
  perm : entries.Perm b.grams.toList

namespace Visit

variable {b : Builder}

/-- The n-grams of one length. -/
def ofLength (o : b.Visit) (length : Nat) : List (Gram × GivenWeights) :=
  o.entries.filter fun e => e.1.length == length

/-- The n-grams are checked by increasing length. -/
def checkGrams (o : b.Visit) : Except Error Unit := do
  (o.ofLength 1).forM fun e => b.checkUnigram e.1
  (List.range' 2 (b.order - 1)).forM fun length =>
    (o.ofLength length).forM fun e => b.checkGram e.1

/-- All checks, in the order in which they are reported. -/
def validate (o : b.Visit) (settings : TableSettings) : Except Error Unit := do
  settings.validate
  b.vocabulary.validate
  b.checkOrder
  b.checkLengths
  o.checkGrams

/-- The n-grams of two words and more. -/
def longer (o : b.Visit) : List Gram := (o.entries.map Prod.fst).filter fun g => 1 < g.length

def extensions (o : b.Visit) : Extensions :=
  let longer := o.longer
  ⟨.ofList (longer.map List.tail), .ofList (longer.map List.dropLast)⟩

/-- The entries of the n-grams of one length. -/
def entriesOf {α : Type} (o : b.Visit) (length : Nat) (entry : Gram → GivenWeights → α) : List α :=
  (o.ofLength length).map fun e => entry e.1 e.2

/-- The filled table of one order. -/
def table {α : Type} [Entry α] (o : b.Visit) (settings : TableSettings) (length : Nat)
    (entry : Gram → GivenWeights → α) : Except Error (Table α) := do
  let table ← Table.forEntries (o.ofLength length).length settings
  table.insertAll (o.entriesOf length entry)

def middleTables (o : b.Visit) (settings : TableSettings) (x : Extensions) :
    Except Error (List (Table MiddleEntry)) :=
  (List.range' 2 (b.order - 2)).mapM fun length =>
    o.table settings length fun g given => { key := g.key, weights := weights x g given }

/-- The table of the highest order; a model of order one has an empty one. -/
def longestTable (o : b.Visit) (settings : TableSettings) : Except Error (Table LongestEntry) :=
  if 1 < b.order then
    o.table settings b.order fun g given => { key := g.key, prob := given.prob }
  else Table.forEntries 0 settings

/-- Checks the collection and fills the tables of a model. -/
def build (o : b.Visit) (settings : TableSettings) : Except Error Model := do
  o.validate settings
  let x := o.extensions
  let middle ← o.middleTables settings x
  let longest ← o.longestTable settings
  let store ← Store.ofTables b.order (b.unigrams x) middle.toArray longest
  Model.ofParts b.vocabulary store

/-- The order of the map itself. -/
def own (b : Builder) : b.Visit := ⟨b.grams.toList, .refl _⟩

/-- Building visits the collection in the order of the map. -/
theorem build_own (b : Builder) (settings : TableSettings) :
    (own b).build settings = b.build settings := by
  have hlonger : (own b).longer = b.longer := by
    rw [longer, own, Std.HashMap.map_fst_toList_eq_keys]
    rfl
  have hextensions : (own b).extensions = b.extensions := by
    rw [extensions, hlonger]
    rfl
  unfold build
  rw [hextensions]
  rfl

variable (o : b.Visit)

theorem perm_ofLength (length : Nat) : (o.ofLength length).Perm (b.ofLength length) :=
  o.perm.filter _

theorem mem_ofLength_iff {e : Gram × GivenWeights} {length : Nat} :
    e ∈ o.ofLength length ↔ e ∈ b.ofLength length :=
  (o.perm_ofLength length).mem_iff

theorem perm_longer : o.longer.Perm b.longer := by
  rw [longer, Builder.longer, ← Std.HashMap.map_fst_toList_eq_keys]
  exact (o.perm.map Prod.fst).filter _

/-- The stored weights are the same in every order. -/
theorem weights_extensions : weights o.extensions = weights b.extensions := by
  apply weights_congr
  · intro g
    rw [extensions, Builder.extensions]
    simp only [Std.HashSet.contains_ofList]
    exact (o.perm_longer.map List.tail).contains_eq
  · intro g
    rw [extensions, Builder.extensions]
    simp only [Std.HashSet.contains_ofList]
    exact (o.perm_longer.map List.dropLast).contains_eq

theorem unigrams_extensions : b.unigrams o.extensions = b.unigrams b.extensions := by
  simp only [unigrams, o.weights_extensions]

end Visit

end Builder

end Ngram
