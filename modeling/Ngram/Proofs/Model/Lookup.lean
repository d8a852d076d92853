import Ngram.Proofs.Model.Collection
import Ngram.Proofs.Number.Sign
import Ngram.Proofs.Score.Climb

/-!
# What look-ups find in a model that was built

Each record of a built model is that of a collected n-gram, with flags that follow from the whole
collection, and a look-up finds it under its key. Nothing else is found, so a look-up for an n-gram
that was not collected finds nothing unless its key is that of another one.

> `independentLeft_record_iff`, `hasExtension_of_begun`: the flags of a record, from the collection.
> `wordHit_eq`, `middleHit_of_mem`, `longestProb_of_mem`: what is collected is found.
> `Clear`: the key of an n-gram that was not collected is no other's; then nothing is found for it.
-/

namespace Ngram

/-- The key of an n-gram takes its oldest word in last. -/
theorem Gram.key_cons (word : Word) {g : Gram} (h : g ≠ []) :
    Gram.key (word :: g) = combine (Gram.key g) word := by
  unfold Gram.key
  rw [List.reverse_cons]
  cases hrev : g.reverse with
  | nil => exact absurd (List.reverse_eq_nil_iff.1 hrev) h
  | cons newest older =>
    rw [List.cons_append]
    exact List.foldl_append

namespace Builder

variable {b : Builder} {m : Model} {g : Gram}

/-- The weights that an n-gram was given; a word without any has those of the unknown word. -/
def given (b : Builder) (g : Gram) : GivenWeights := b.grams.getD g b.fallback

/-- The stored weights of an n-gram. -/
def record (b : Builder) (g : Gram) : Weights := weights b.extensions g (b.given g)

/-- The probability that a match of an n-gram gives. At the highest order, from two on, it is stored
as it was given, and below with a flag in place of its sign. -/
def storedProb (b : Builder) (g : Gram) : Single :=
  if 1 < b.order ∧ g.length = b.order then (b.given g).prob else (b.record g).prob

/-- The backoff that is charged behind an n-gram. -/
def storedBackoff (b : Builder) (g : Gram) : Single := (b.record g).backoff

/-- An n-gram that counts as stored: single words always do. -/
def Stored (b : Builder) (g : Gram) : Prop := g.length = 1 ∨ g ∈ b.grams

/-- Every n-gram of three words and more without its newest word was collected as well. -/
def PrefixClosed (b : Builder) : Prop := ∀ g ∈ b.grams, 3 ≤ g.length → g.dropLast ∈ b.grams

/-- No collected n-gram of the same length has the key of an n-gram that was not collected. -/
def Clear (b : Builder) (g : Gram) : Prop :=
  g ∉ b.grams → ∀ g' ∈ b.grams, g'.length = g.length → g'.key ≠ g.key

theorem clear_of_mem (h : g ∈ b.grams) : b.Clear g := fun hg => absurd h hg

theorem given_of_getElem? {w : GivenWeights} (h : b.grams[g]? = some w) : b.given g = w := by
  rw [given, Std.HashMap.getD_eq_getD_getElem?, h]
  rfl

theorem mem_longer_iff : g ∈ b.longer ↔ g ∈ b.grams ∧ 1 < g.length := by
  rw [longer, List.mem_filter, Std.HashMap.mem_keys]
  simp

/-- The n-grams that a longer one ends in. -/
theorem contains_ended_iff :
    b.extensions.ended.contains g = true ↔ ∃ g' ∈ b.grams, 1 < g'.length ∧ g'.tail = g := by
  rw [extensions]
  simp only [Std.HashSet.contains_ofList, List.contains_iff_mem, List.mem_map, mem_longer_iff]
  exact exists_congr fun g' => and_assoc

/-- The n-grams that a longer one begins with. -/
theorem contains_begun_iff :
    b.extensions.begun.contains g = true ↔ ∃ g' ∈ b.grams, 1 < g'.length ∧ g'.dropLast = g := by
  rw [extensions]
  simp only [Std.HashSet.contains_ofList, List.contains_iff_mem, List.mem_map, mem_longer_iff]
  exact exists_congr fun g' => and_assoc

theorem prob_record : (b.record g).prob = (b.given g).prob.setSign := Weights.prob_pack

/-- A record is independent to the left exactly if no longer n-gram ends in its n-gram. -/
theorem independentLeft_record_iff : (b.record g).independentLeft = true ↔
    ∀ g' ∈ b.grams, 1 < g'.length → g'.tail ≠ g := by
  rw [record, weights, Weights.independentLeft_pack, Bool.not_eq_true', ← Bool.not_eq_true,
    contains_ended_iff]
  simp

/-- Where a longer n-gram begins with an n-gram, a state that ends in it is not cut. -/
theorem hasExtension_of_begun {g' : Gram} (h : g' ∈ b.grams) (hlen : 1 < g'.length)
    (hbegin : g'.dropLast = g) : hasExtension (b.storedBackoff g) = true := by
  have hbegun := contains_begun_iff.2 ⟨g', h, hlen, hbegin⟩
  show hasExtension (markBackoff _ (b.extensions.begun.contains g)) = true
  rw [hasExtension_markBackoff, hbegun, Bool.or_true]

/-- The hit that an n-gram is to be found with. -/
def hitOf (b : Builder) (g : Gram) : Hit := (b.record g).hit g.key

theorem mem_entriesOf {α : Type} {entry : Gram → GivenWeights → α} {length : Nat} {e : α} :
    e ∈ b.entriesOf length entry ↔
      ∃ g ∈ b.grams, g.length = length ∧ entry g (b.given g) = e := by
  rw [entriesOf, List.mem_map]
  constructor
  · intro h
    obtain ⟨⟨g, w⟩, he, rfl⟩ := h
    obtain ⟨hmem, hlen⟩ := mem_of_mem_ofLength he
    exact ⟨g, hmem, hlen, by rw [given_of_getElem? (mem_ofLength.1 he).1]⟩
  · intro h
    obtain ⟨g, hg, rfl, rfl⟩ := h
    have hget := Std.HashMap.getElem?_eq_some_getElem hg
    exact ⟨(g, b.grams[g]), exists_mem_ofLength hg, by rw [given_of_getElem? hget]⟩

section Tables

variable {α : Type} [Entry α] {t : Table α} {entry : Gram → GivenWeights → α} {length : Nat}

/-- The table of a length finds what was collected under its key. -/
theorem find_eq_some_of_mem (hholds : t.Holds (b.entriesOf length entry))
    (hkey : Entry.key (entry g (b.given g)) = g.key) (hg : g ∈ b.grams)
    (hlen : g.length = length) : t.find g.key = some (entry g (b.given g)) :=
  hholds.find_eq_some_iff.2 ⟨mem_entriesOf.2 ⟨g, hg, hlen, rfl⟩, hkey⟩

/-- It finds nothing for what was not collected, if its key is no other's. -/
theorem find_eq_none_of_clear (hholds : t.Holds (b.entriesOf length entry))
    (hkey : ∀ g given, Entry.key (entry g given) = g.key) (hclear : b.Clear g) (hg : g ∉ b.grams)
    (hlen : g.length = length) : t.find g.key = none := by
  rw [Option.eq_none_iff_forall_not_mem]
  intro e he
  obtain ⟨hmem, hsame⟩ := hholds.find_eq_some_iff.1 he
  obtain ⟨g', hg', hlen', rfl⟩ := mem_entriesOf.1 hmem
  rw [hkey] at hsame
  exact hclear hg g' hg' (hlen'.trans hlen.symm) hsame

end Tables

/-- The array of the single words holds the record of each word of the vocabulary. -/
theorem getElem?_unigrams {word : Word} (hword : word < b.vocabulary.bound) :
    (b.unigrams b.extensions)[word.toNat]? = some (b.record [word]) := by
  have hlt : word.toNat < (b.unigrams b.extensions).size := by
    rw [size_unigrams]
    exact UInt32.lt_iff_toNat_lt.1 hword
  have hsame : word.toNat.toUInt32 = word := UInt32.ofNat_toNat
  rw [Array.getElem?_eq_getElem hlt]
  simp only [unigrams, Array.getElem_ofFn, hsame]
  rfl

namespace Built

variable {level : Nat}

/-- Each word of the vocabulary is found. -/
theorem wordHit_eq (h : b.Built m) {word : Word} (hword : word < b.vocabulary.bound) :
    m.store.wordHit word = b.hitOf [word] := by
  rw [Store.wordHit, h.unigrams, getElem?_unigrams hword]
  rfl

/-- An n-gram below the highest order is found under its key. -/
theorem middleHit_of_mem (h : b.Built m) (hg : g ∈ b.grams) (hlen : g.length = level + 2)
    (hlevel : level + 2 < b.order) : m.store.middleHit level g.key = some (b.hitOf g) := by
  obtain ⟨t, ht, hholds⟩ := h.middle level hlevel
  rw [Store.middleHit, ht, Option.bind_some, find_eq_some_of_mem hholds rfl hg hlen]
  rfl

/-- Nothing is found for an n-gram that was not collected, if its key is no other's. -/
theorem middleHit_of_not_mem (h : b.Built m) (hclear : b.Clear g) (hg : g ∉ b.grams)
    (hlen : g.length = level + 2) (hlevel : level + 2 < b.order) :
    m.store.middleHit level g.key = none := by
  obtain ⟨t, ht, hholds⟩ := h.middle level hlevel
  rw [Store.middleHit, ht, Option.bind_some,
    find_eq_none_of_clear hholds (fun _ _ => rfl) hclear hg hlen]
  rfl

/-- A highest order with an n-gram of two words and more has a table of its own. -/
theorem longest_of_cons (h : b.Built m) {older : Word} (hne : g ≠ [])
    (hlen : (older :: g).length = b.order) :
    m.store.longest.Holds (b.entriesOf b.order longestEntry) := by
  refine h.longest ?_
  have := List.length_pos_iff.2 hne
  rw [← hlen, List.length_cons]
  omega

/-- An n-gram of the highest order is found. -/
theorem longestProb_of_mem (h : b.Built m) {older : Word} (hne : g ≠ [])
    (hmem : older :: g ∈ b.grams) (hlen : (older :: g).length = b.order) :
    m.store.longestProb g.key older = some (b.given (older :: g)).prob := by
  have hholds := h.longest_of_cons hne hlen
  rw [Store.longestProb, ← Gram.key_cons older hne, find_eq_some_of_mem hholds rfl hmem hlen]
  rfl

/-- Nothing is found there for an n-gram that was not collected, if its key is no other's. -/
theorem longestProb_of_not_mem (h : b.Built m) {older : Word} (hne : g ≠ [])
    (hclear : b.Clear (older :: g)) (hmem : older :: g ∉ b.grams)
    (hlen : (older :: g).length = b.order) : m.store.longestProb g.key older = none := by
  have hholds := h.longest_of_cons hne hlen
  rw [Store.longestProb, ← Gram.key_cons older hne,
    find_eq_none_of_clear hholds (fun _ _ => rfl) hclear hmem hlen]
  rfl

end Built

end Builder

end Ngram
