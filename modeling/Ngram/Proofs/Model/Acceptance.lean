import Ngram.Proofs.Model.Faults
import Ngram.Proofs.Model.Flags

/-!
# What becomes of a sequence of calls

A collection is filled by calls, one n-gram with its weights after another. Which calls make a model
can be said of the n-grams alone, without a map and without a table: an admissible list is accepted
and no other one. The model then holds one record for each word and for each n-gram, with the
weights that were given last.

> `Admissible`: what is asked of the n-grams that are given.
> `accepted_listed_iff`: the collection of a list is accepted exactly if the list is admissible.
> `Stores`: what a model holds of the calls, and `Built.stores`, that a model that was built does.
> `build_exact`: accepted or not, and with what, in whatever order the collection is visited.
-/

namespace Ngram

namespace Builder

/-- What is asked of settings, vocabulary and order, and of the n-grams that are given. -/
structure Admissible (order : Nat) (vocabulary : Vocabulary) (settings : TableSettings)
    (grams : List Gram) : Prop where
  multiplier : ∃ q, settings.multiplier.reading.rational = some q ∧ 1 ≤ q
  specials : vocabulary.unknown < vocabulary.bound ∧ vocabulary.beginSentence < vocabulary.bound ∧
    vocabulary.endSentence < vocabulary.bound ∧ vocabulary.beginSentence ≠ vocabulary.endSentence
  order_range : 1 ≤ order ∧ order ≤ 6
  lengths : ∀ g ∈ grams, 1 ≤ g.length ∧ g.length ≤ 6
  length_le : ∀ g ∈ grams, g.length ≤ order
  inside : ∀ g ∈ grams, ∀ word ∈ g, word < vocabulary.bound
  suffix : ∀ g ∈ grams, 3 ≤ g.length → g.tail ∈ grams
  key_ne_zero : ∀ g ∈ grams, 2 ≤ g.length → g.key ≠ 0
  key_injective : ∀ g ∈ grams, ∀ g' ∈ grams, 2 ≤ g.length → g.length = g'.length →
    g.key = g'.key → g = g'

variable {order : Nat} {vocabulary : Vocabulary} {settings : TableSettings}
  {calls : List (Gram × GivenWeights)}

/-- The settings are valid if the multiplier is finite and at least one. -/
theorem validate_eq_ok_iff_multiplier : settings.validate = .ok () ↔
    ∃ q, settings.multiplier.reading.rational = some q ∧ 1 ≤ q := by
  rw [← Single.isFiniteFromOne_iff, TableSettings.validate]
  split
  next h => exact iff_of_true rfl h
  next h => exact iff_of_false nofun h

/-- The lengths of a list can be read off its collection. -/
theorem rejected_listed_iff : (listed order vocabulary calls).rejected = none ↔
    ∀ e ∈ calls, 0 < e.1.length ∧ e.1.length ≤ maxOrder := by
  rw [listed, rejected_addAll]
  exact and_iff_right rfl

/-- **A list is accepted exactly if it is admissible**, where there is room for the tables. -/
theorem accepted_listed_iff
    (hroom : settings.validate = .ok () → (listed order vocabulary calls).Room settings) :
    (listed order vocabulary calls).Accepted settings ↔
      Admissible order vocabulary settings (calls.map Prod.fst) := by
  constructor
  · intro h
    have hlen := rejected_listed_iff.1 h.wellFormed.rejected
    obtain ⟨horder, -⟩ := listed_keeps order vocabulary hlen
    obtain ⟨hvalid, hrange, hlength, hinside, hsuffix⟩ :=
      (wellFormed_listed_iff hlen).1 h.wellFormed
    -- the keys of each length that is there are fit for its table
    have hkeyed : ∀ g ∈ calls.map Prod.fst, 2 ≤ g.length →
        (listed order vocabulary calls).Keyed g.length := by
      intro g hg htwo
      have hle := hlength g hg
      rw [← horder] at hle
      exact h.keyed g.length htwo hle
    refine ⟨validate_eq_ok_iff_multiplier.1 h.valid,
      ⟨hvalid.unknown_lt, hvalid.beginSentence_lt, hvalid.endSentence_lt, hvalid.specials_ne⟩,
      hrange, List.forall_mem_map.2 hlen, hlength, hinside, hsuffix, ?_, ?_⟩
    · intro g hg htwo
      exact ((keyed_listed_iff hlen).1 (hkeyed g hg htwo)).1 g hg rfl
    · intro g hg g' hg' htwo hsame
      exact ((keyed_listed_iff hlen).1 (hkeyed g hg htwo)).2 g hg g' hg' rfl hsame.symm
  · intro h
    have hlen : ∀ e ∈ calls, 0 < e.1.length ∧ e.1.length ≤ maxOrder :=
      List.forall_mem_map.1 h.lengths
    have hvalid := validate_eq_ok_iff_multiplier.2 h.multiplier
    obtain ⟨hunknown, hbegin, hend, hne⟩ := h.specials
    refine ⟨hvalid, (wellFormed_listed_iff hlen).2 ⟨⟨hunknown, hbegin, hend, hne⟩, h.order_range,
      h.length_le, h.inside, h.suffix⟩, ?_, (hroom hvalid).fits, (hroom hvalid).longestFits⟩
    intro length hlow _
    refine (keyed_listed_iff hlen).2 ⟨?_, ?_⟩
    · rintro g hg rfl
      exact h.key_ne_zero g hg hlow
    · rintro g hg g' hg' rfl hsame
      exact h.key_injective g hg g' hg' hlow hsame.symm

/-- The weights that an n-gram was given last. -/
def lastGiven (calls : List (Gram × GivenWeights)) (g : Gram) : Option GivenWeights :=
  calls.reverse.lookup g

/-- The weights of a single word: its own, or those of the unknown word, or `-100`. -/
def wordGiven (vocabulary : Vocabulary) (calls : List (Gram × GivenWeights)) (word : Word) :
    GivenWeights :=
  ((lastGiven calls [word]).or (lastGiven calls [vocabulary.unknown])).getD
    ⟨⟨0xc2c80000⟩, .zero, ⟨0xc2c80000⟩⟩

example : (⟨0xc2c80000⟩ : Single).reading.rational = some (-100) := by decide +kernel

/-- What a model holds of the calls that it was made from: a record of each word and of each n-gram,
which says what `Describes` says of the weights that were given last. The highest order keeps the
probability as it was given. -/
structure Stores (order : Nat) (vocabulary : Vocabulary) (calls : List (Gram × GivenWeights))
    (m : Model) : Prop where
  vocabulary_eq : m.vocabulary = vocabulary
  order_eq : m.store.order = order
  size_unigrams : m.store.unigrams.size = vocabulary.bound.toNat
  word : ∀ word < vocabulary.bound, ∃ r, m.store.unigrams[word.toNat]? = some r ∧
    Describes (calls.map Prod.fst) [word] (wordGiven vocabulary calls word) r
  middle : ∀ length, 2 ≤ length → length < order → ∃ t, m.store.middle[length - 2]? = some t ∧
    t.count = countOf (calls.map Prod.fst).dedup length ∧
    ∀ g given, g.length = length → lastGiven calls g = some given →
      ∃ r, t.find g.key = some ⟨g.key, r, 0⟩ ∧ Describes (calls.map Prod.fst) g given r
  longest : 2 ≤ order → m.store.longest.count = countOf (calls.map Prod.fst).dedup order ∧
    ∀ g given, g.length = order → lastGiven calls g = some given →
      m.store.longest.find g.key = some ⟨g.key, given.prob, 0⟩

section Stores

variable {g : Gram} {given : GivenWeights} {m : Model}

theorem given_singleton_listed (hlen : ∀ e ∈ calls, 0 < e.1.length ∧ e.1.length ≤ maxOrder)
    (word : Word) :
    (listed order vocabulary calls).given [word] = wordGiven vocabulary calls word := by
  obtain ⟨-, hvocabulary, -⟩ := listed_keeps order vocabulary hlen
  have hlast (g : Gram) : (listed order vocabulary calls).grams[g]? = lastGiven calls g :=
    getElem?_listed hlen
  rw [Builder.given, fallback, Std.HashMap.getD_eq_getD_getElem?,
    Std.HashMap.getD_eq_getD_getElem?, hlast, hlast, hvocabulary, wordGiven]
  cases lastGiven calls [word] with
  | none => rfl
  | some given => rfl

/-- A table of the n-grams of one length has as many entries as were given, each counted once, and
finds each under its key. -/
theorem count_and_find {α : Type} [Entry α] {t : Table α} {length : Nat}
    {entry : Gram → GivenWeights → α}
    (hlen : ∀ e ∈ calls, 0 < e.1.length ∧ e.1.length ≤ maxOrder)
    (hkey : ∀ g given, Entry.key (entry g given) = g.key)
    (hholds : t.Holds ((listed order vocabulary calls).entriesOf length entry)) :
    t.count = countOf (calls.map Prod.fst).dedup length ∧
      ∀ g given, g.length = length → lastGiven calls g = some given →
        t.find g.key = some (entry g given) := by
  refine ⟨?_, ?_⟩
  · rw [hholds.count_eq, length_entriesOf, length_ofLength_listed_dedup hlen]
  · intro g given hlength hlast
    have hget : (listed order vocabulary calls).grams[g]? = some given :=
      (getElem?_listed hlen).trans hlast
    have hmem : g ∈ (listed order vocabulary calls).grams := by
      rw [Std.HashMap.mem_iff_isSome_getElem?, hget]
      rfl
    have hfind := find_eq_some_of_mem hholds (hkey _ _) hmem hlength
    rw [given_of_getElem? hget] at hfind
    exact hfind

/-- The record of an n-gram describes it among those of the calls. -/
theorem WellFormed.describes_record (h : (listed order vocabulary calls).WellFormed)
    (hlen : ∀ e ∈ calls, 0 < e.1.length ∧ e.1.length ≤ maxOrder) (hg : g ≠ []) :
    Describes (calls.map Prod.fst) g ((listed order vocabulary calls).given g)
      ((listed order vocabulary calls).record g) :=
  (h.exact_record hg).congr fun _ => mem_listed hlen

/-- A model that was built stores what was given. -/
theorem Built.stores (h : (listed order vocabulary calls).Built m)
    (hformed : (listed order vocabulary calls).WellFormed) : Stores order vocabulary calls m := by
  have hlen := rejected_listed_iff.1 hformed.rejected
  obtain ⟨horder, hvocabulary, -⟩ := listed_keeps order vocabulary hlen
  refine ⟨h.vocabulary.trans hvocabulary, h.order.trans horder, ?_, ?_, ?_, ?_⟩
  · rw [h.unigrams, size_unigrams, hvocabulary]
  · intro word hword
    rw [← hvocabulary] at hword
    have hdescribes := hformed.describes_record hlen (List.cons_ne_nil word [])
    rw [given_singleton_listed hlen] at hdescribes
    exact ⟨_, by rw [h.unigrams, getElem?_unigrams hword], hdescribes⟩
  · intro length hlow hhigh
    rw [← horder] at hhigh
    obtain ⟨t, ht, hholds⟩ := h.middle (length - 2) (by omega)
    rw [Nat.sub_add_cancel hlow] at hholds
    obtain ⟨hcount, hfind⟩ := count_and_find hlen (fun _ _ => rfl) hholds
    refine ⟨t, ht, hcount, ?_⟩
    intro g given hlength hlast
    have hne : g ≠ [] := List.length_pos_iff.1 (by omega)
    have hdescribes := hformed.describes_record hlen hne
    rw [record, given_of_getElem? ((getElem?_listed hlen).trans hlast)] at hdescribes
    exact ⟨_, hfind g given hlength hlast, hdescribes⟩
  · intro htwo
    have hholds := h.longest (by rw [horder]; exact htwo)
    rw [horder] at hholds
    exact count_and_find hlen (fun _ _ => rfl) hholds

end Stores

/-- **Building accepts exactly the well-formed and stores exactly what was given.** Where the
buckets of the tables can be held, calls make a model exactly if they are admissible. Otherwise they
are refused for their settings, their content or their keys, and never because a table is full. A
model holds the weights that were given last, whatever the order in which the collection is
visited. -/
theorem build_exact
    (hroom : settings.validate = .ok () → (listed order vocabulary calls).Room settings)
    (o : (listed order vocabulary calls).Visit) :
    ((∃ m, o.build settings = .ok m) ↔
      Admissible order vocabulary settings (calls.map Prod.fst)) ∧
    (∀ e, o.build settings = .error e → e.IsBuildFault ∧ ∀ buckets, e ≠ .tableFull buckets) ∧
    ∀ m, o.build settings = .ok m → Stores order vocabulary calls m := by
  refine ⟨?_, ?_, ?_⟩
  · rw [o.build_eq_ok_iff]
    exact accepted_listed_iff hroom
  · intro e he
    have hfault := o.isBuildFault_of_build hroom he
    refine ⟨hfault, ?_⟩
    rintro buckets rfl
    cases hfault
  · intro m hm
    obtain ⟨haccepted, hbuilt⟩ := o.built_of_build hm
    exact hbuilt.stores haccepted.wellFormed

/-- The pair `4 5` is given twice, and most words are not given at all. -/
def correctedCalls : List (Gram × GivenWeights) :=
  [([4, 5], ⟨⟨0xc0000000⟩, .zero, ⟨0xc0000000⟩⟩),
    ([3, 4, 5], ⟨⟨0xbe800000⟩, .zero, ⟨0xbe800000⟩⟩),
    ([4], ⟨⟨0xbf800000⟩, ⟨0xbf000000⟩, ⟨0xbf800000⟩⟩),
    ([4, 5], ⟨⟨0xbf000000⟩, .zero, ⟨0xbf000000⟩⟩)]

theorem room_corrected : (listed 3 { bound := 6 } correctedCalls).Room {} := by
  refine room_listed (by decide) ?_ (by decide +kernel)
  intro length hlow hhigh
  obtain rfl : length = 2 := by omega
  decide +kernel

theorem admissible_corrected :
    Admissible 3 { bound := 6 } {} (correctedCalls.map Prod.fst) := by
  have hinside : ∀ g ∈ correctedCalls.map Prod.fst, ∀ word ∈ g, word < (6 : Word) := by
    simp [correctedCalls]
  exact ⟨⟨3 / 2, by decide +kernel, by norm_num⟩, by decide, by decide, by decide, by decide,
    hinside, by decide, by decide +kernel, by decide +kernel⟩

/-- The table of pairs has one entry, with the later weights, whose zero gets a sign because no
longer n-gram begins with the pair. A word that was not given has `-100`. -/
theorem build_exact_corrected :
    ∃ (m : Model) (t : Table MiddleEntry) (pair five : Weights),
      (Visit.own (listed 3 { bound := 6 } correctedCalls)).build {} = .ok m ∧
      m.store.middle[0]? = some t ∧ t.count = 1 ∧
      t.find (Gram.key [4, 5]) = some ⟨Gram.key [4, 5], pair, 0⟩ ∧
      pair.prob = ⟨0xbf000000⟩ ∧ pair.backoff = .negZero ∧ pair.rest = ⟨0xbf000000⟩ ∧
      pair.independentLeft = false ∧
      m.store.unigrams[5]? = some five ∧ five.prob = ⟨0xc2c80000⟩ ∧ five.backoff = .negZero ∧
      five.rest = ⟨0xc2c80000⟩ ∧
      m.store.longest.find (Gram.key [3, 4, 5]) =
        some ⟨Gram.key [3, 4, 5], ⟨0xbe800000⟩, 0⟩ := by
  obtain ⟨haccepts, -, hstores⟩ := build_exact (fun _ => room_corrected) (Visit.own _)
  obtain ⟨m, hm⟩ := haccepts.2 admissible_corrected
  have hm' := hstores m hm
  obtain ⟨t, ht, hcount, hfind⟩ := hm'.middle 2 (Nat.le_refl 2) (Nat.lt_succ_self 2)
  have hdistinct : countOf (correctedCalls.map Prod.fst).dedup 2 = 1 := by decide +kernel
  obtain ⟨pair, hpair, hdescribed⟩ := hfind [4, 5] ⟨⟨0xbf000000⟩, .zero, ⟨0xbf000000⟩⟩ rfl
    (by decide +kernel)
  obtain ⟨five, hfive, hword⟩ := hm'.word 5 (by decide)
  have hgiven : wordGiven { bound := 6 } correctedCalls 5 =
      ⟨⟨0xc2c80000⟩, .zero, ⟨0xc2c80000⟩⟩ := by decide +kernel
  rw [hgiven] at hword
  -- nothing begins with the pair, and nothing with the word
  have hlast : ∀ g ∈ correctedCalls.map Prod.fst, ¬ [4, 5] <+: g ∨ g.length ≠ 3 := by decide
  have hlast' : ∀ g ∈ correctedCalls.map Prod.fst, ¬ [5] <+: g := by decide
  refine ⟨m, t, pair, five, hm, ht, hcount.trans hdistinct, hpair, hdescribed.prob, ?_,
    hdescribed.rest, ?_, hfive, hword.prob, ?_, hword.rest, ?_⟩
  · refine (hdescribed.backoff_last (by decide +kernel) ?_).1
    rintro ⟨g, hg, hthree, hbegins⟩
    exact (hlast g hg).elim (fun h => h hbegins) (fun h => h hthree)
  · refine eq_false_of_ne_true fun hflag => ?_
    exact hdescribed.independentLeft.1 hflag [3, 4, 5] (by decide) (by decide) (by decide)
  · refine (hword.backoff_last (by decide +kernel) ?_).1
    rintro ⟨g, hg, -, hbegins⟩
    exact hlast' g hg hbegins
  · exact (hm'.longest (by decide)).2 [3, 4, 5] ⟨⟨0xbe800000⟩, .zero, ⟨0xbe800000⟩⟩ rfl
      (by decide +kernel)

end Builder

end Ngram
