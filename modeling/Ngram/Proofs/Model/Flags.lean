import Ngram.Proofs.Model.Content
import Ngram.Proofs.Number.Reading
import Ngram.Proofs.Score.Records
import Ngram.Proofs.Score.Suffixes

/-!
# The flags in the stored weights

A record has two flags, and they are collected from the n-grams that are longer by one word only:
one that ends in an n-gram and one that begins with it. What they are read as says more. A match is
not extended behind a flag that says that no longer n-gram ends in this one, whatever its length,
and that follows because suffixes are stored. The flags take the place of a sign and of a zero, and
cost nothing else of the weights that were given.

> `independentLeft_record_iff_longer`: the flag to the left speaks of all longer n-grams.
> `contains_begun_iff_succ`: the flag to the right speaks of those longer by one word.
> `Describes`: what a record says of the weights that were given, and `Visit.record_exact`: every
> record of a built model says so of those of the collection.
-/

namespace Ngram

/-- A backoff that is not zero stands as it is given, what is not a number included. -/
theorem markBackoff_of_ne_zero {backoff : Single} {begun : Bool}
    (h : backoff.reading.rational ≠ some 0) : Builder.markBackoff backoff begun = backoff := by
  have hzero : ¬ backoff.isZero = true := fun hzero => h (backoff.isZero_iff.1 hzero)
  rw [Builder.markBackoff, if_pos (by simpa using hzero)]

/-- A zero of either sign becomes the one that says whether the n-gram can be extended. -/
theorem markBackoff_of_eq_zero {backoff : Single} {begun : Bool}
    (h : backoff.reading.rational = some 0) :
    Builder.markBackoff backoff begun = if begun then .zero else .negZero := by
  have hzero := backoff.isZero_iff.2 h
  rw [Builder.markBackoff, if_neg (by rw [hzero]; decide)]

namespace Builder

variable {b : Builder} {m : Model} {g : Gram}

theorem eq_cons_of_tail_eq {g' : Gram} (hlen : 1 < g'.length) (h : g'.tail = g) :
    ∃ word, g' = word :: g := by
  cases g' with
  | nil => cases hlen
  | cons word rest => exact ⟨word, by rw [← h]; rfl⟩

/-- **No longer n-gram ends in one that is flagged.** Suffixes are stored, so between an n-gram and
any longer one that ends in it there is one with one more word in front. -/
theorem WellFormed.independentLeft_record_iff_longer (h : b.WellFormed) (hg : g ≠ []) :
    (b.record g).independentLeft = true ↔
      ∀ g' ∈ b.grams, g.length < g'.length → ¬ g <:+ g' := by
  rw [independentLeft_record_iff]
  constructor
  · rintro hflag g' hmem hlonger ⟨front, rfl⟩
    rcases List.eq_nil_or_concat front with rfl | ⟨front, word, rfl⟩
    · exact absurd hlonger (Nat.lt_irrefl _)
    · have hpos := List.length_pos_iff.2 hg
      rw [List.concat_eq_append, List.append_assoc, List.singleton_append] at hmem
      have hnext : word :: g ∈ b.grams := h.mem_of_append hmem (Nat.succ_le_succ hpos)
      exact hflag _ hnext (Nat.succ_lt_succ hpos) rfl
  · intro hlonger g' hmem hone htail
    obtain ⟨word, rfl⟩ := eq_cons_of_tail_eq hone htail
    exact hlonger _ hmem (Nat.lt_succ_self _) (List.suffix_cons word g)

/-- An n-gram is marked as a beginning if one that is longer by one word begins with it. -/
theorem contains_begun_iff_succ (hg : g ≠ []) : b.extensions.begun.contains g = true ↔
    ∃ g' ∈ b.grams, g'.length = g.length + 1 ∧ g <+: g' := by
  rw [contains_begun_iff]
  have hpos := List.length_pos_iff.2 hg
  apply exists_congr
  intro g'
  apply and_congr_right
  intro _
  constructor
  · rintro ⟨hone, rfl⟩
    refine ⟨?_, List.dropLast_prefix _⟩
    rw [List.length_dropLast]
    omega
  · rintro ⟨hlen, hfront⟩
    refine ⟨by omega, ?_⟩
    rw [List.prefix_iff_eq_take.1 hfront, List.dropLast_eq_take, hlen, Nat.add_sub_cancel]

/-- What a record says of an n-gram and of the weights that this was given, where it stands among
other n-grams. -/
structure Describes {γ : Type} [Membership Gram γ] (grams : γ) (g : Gram) (given : GivenWeights)
    (r : Weights) : Prop where
  independentLeft : r.independentLeft = true ↔ ∀ g' ∈ grams, g.length < g'.length → ¬ g <:+ g'
  backoff : given.backoff.reading.rational ≠ some 0 → r.backoff = given.backoff
  backoff_begun : given.backoff.reading.rational = some 0 →
    (∃ g' ∈ grams, g'.length = g.length + 1 ∧ g <+: g') → r.backoff = .zero
  backoff_last : given.backoff.reading.rational = some 0 →
    (¬ ∃ g' ∈ grams, g'.length = g.length + 1 ∧ g <+: g') →
      r.backoff = .negZero ∧ hasExtension r.backoff = false
  prob : r.prob = given.prob.setSign
  rest : r.rest = given.rest

/-- All that matters of the other n-grams is which ones they are. -/
theorem Describes.congr {γ γ' : Type} [Membership Gram γ] [Membership Gram γ'] {grams : γ}
    {grams' : γ'} {given : GivenWeights} {r : Weights} (h : Describes grams g given r)
    (hsame : ∀ g, g ∈ grams ↔ g ∈ grams') : Describes grams' g given r := by
  obtain ⟨hleft, hbackoff, hbegun, hlast, hprob, hrest⟩ := h
  simp only [hsame] at hleft hbegun hlast
  exact ⟨hleft, hbackoff, hbegun, hlast, hprob, hrest⟩

/-- What a record says in a collection. -/
abbrev Exact (b : Builder) (g : Gram) (r : Weights) : Prop := Describes b.grams g (b.given g) r

/-- The record of an n-gram says so. -/
theorem WellFormed.exact_record (h : b.WellFormed) (hg : g ≠ []) : b.Exact g (b.record g) := by
  refine ⟨h.independentLeft_record_iff_longer hg, markBackoff_of_ne_zero, ?_, ?_, prob_record, rfl⟩
  · intro hzero hbegun
    show markBackoff _ (b.extensions.begun.contains g) = _
    rw [markBackoff_of_eq_zero hzero, (contains_begun_iff_succ hg).2 hbegun, if_pos rfl]
  · intro hzero hlast
    rw [← contains_begun_iff_succ hg] at hlast
    have hbackoff : (b.record g).backoff = .negZero := by
      show markBackoff _ (b.extensions.begun.contains g) = _
      rw [markBackoff_of_eq_zero hzero, if_neg hlast]
    exact ⟨hbackoff, by rw [hbackoff]; rfl⟩

/-- **The flags in the stored weights are exact.** In a model that was built, visiting the
collection in any order, each word of the vocabulary and each collected n-gram below the highest
order has a record, and its flags say what they mean. -/
theorem Visit.record_exact {settings : TableSettings} (o : b.Visit)
    (hbuild : o.build settings = .ok m)
    (hg : (∃ word, g = [word] ∧ word < b.vocabulary.bound) ∨
      g ∈ b.grams ∧ g.length < b.order) :
    ∃ r, m.store.weightsOf g = some r ∧ b.Exact g r := by
  obtain ⟨haccepted, hbuilt⟩ := o.built_of_build hbuild
  have hformed := haccepted.wellFormed
  rcases hg with ⟨word, rfl, hword⟩ | ⟨hmem, hlen⟩
  · exact ⟨_, hbuilt.weightsOf_singleton hword, hformed.exact_record (List.cons_ne_nil _ _)⟩
  · have hne : g ≠ [] := List.length_pos_iff.1 (b.lengths g hmem).1
    refine ⟨b.record g, ?_, hformed.exact_record hne⟩
    rcases Nat.lt_or_eq_of_le (b.lengths g hmem).1 with hone | hone
    · exact hbuilt.weightsOf_eq hmem hone hlen
    · -- a single word that was collected lies below the bound
      obtain ⟨word, rfl⟩ := List.length_eq_one_iff.1 hone.symm
      exact hbuilt.weightsOf_singleton
        (hformed.inside _ hmem word (List.mem_singleton_self word))

/-- Three words of which each pair is stored, the pairs with zeros of either sign for backoffs. -/
def flaggedGrams : List (Gram × GivenWeights) :=
  [([3], ⟨⟨0x3f800000⟩, ⟨0x7fc00001⟩, ⟨0xbf800000⟩⟩),
    ([3, 4], ⟨⟨0xbf000000⟩, .negZero, ⟨0xbf000000⟩⟩), ([4, 5], ⟨⟨0xbf800000⟩, .zero, .zero⟩),
    ([3, 4, 5], ⟨⟨0xbe800000⟩, .zero, ⟨0xbe800000⟩⟩)]

/-- The first pair can be extended to the right only, and its zero loses its sign; the second one to
the left only, and its zero gets one. -/
theorem record_exact_pairs :
    ∃ (o : (listed 3 { bound := 6 } flaggedGrams).Visit) (m : Model) (r r' : Weights),
      o.build {} = .ok m ∧
      m.store.weightsOf [3, 4] = some r ∧ r.independentLeft = true ∧ r.backoff = .zero ∧
      m.store.weightsOf [4, 5] = some r' ∧ r'.independentLeft = false ∧ r'.backoff = .negZero := by
  have hlen : ∀ e ∈ flaggedGrams, 0 < e.1.length ∧ e.1.length ≤ maxOrder := by decide
  have haccepted : (listed 3 { bound := 6 } flaggedGrams).Accepted {} :=
    accepted_listed (by decide +kernel)
  obtain ⟨m, hm⟩ := (Visit.own _).build_eq_ok_iff.2 haccepted
  have hmem (g : Gram) : g ∈ (listed 3 { bound := 6 } flaggedGrams).grams ↔
      g ∈ flaggedGrams.map Prod.fst := mem_listed hlen
  obtain ⟨horder, -⟩ := listed_keeps 3 { bound := 6 } hlen
  have hbelow : 2 < (listed 3 { bound := 6 } flaggedGrams).order := by
    rw [horder]
    exact Nat.lt_succ_self 2
  obtain ⟨r, hr, hexact⟩ := (Visit.own _).record_exact hm
    (Or.inr ⟨(hmem [3, 4]).2 (by decide), hbelow⟩)
  obtain ⟨r', hr', hexact'⟩ := (Visit.own _).record_exact hm
    (Or.inr ⟨(hmem [4, 5]).2 (by decide), hbelow⟩)
  have hgiven : (listed 3 { bound := 6 } flaggedGrams).given [3, 4] = _ :=
    given_of_getElem? (getElem?_listed hlen)
  have hgiven' : (listed 3 { bound := 6 } flaggedGrams).given [4, 5] = _ :=
    given_of_getElem? (getElem?_listed hlen)
  refine ⟨Visit.own _, m, r, r', hm, hr, ?_, ?_, hr', ?_, ?_⟩
  · refine hexact.independentLeft.2 fun g hg => ?_
    rw [hmem] at hg
    revert g
    decide
  · refine hexact.backoff_begun ?_ ⟨[3, 4, 5], (hmem _).2 (by decide), rfl, by decide⟩
    rw [hgiven]
    decide +kernel
  · refine eq_false_of_ne_true fun hflag => ?_
    exact hexact'.independentLeft.1 hflag [3, 4, 5] ((hmem _).2 (by decide)) (by decide) (by decide)
  · refine (hexact'.backoff_last ?_ ?_).1
    · rw [hgiven']
      decide +kernel
    · rintro ⟨g, hg, hlonger⟩
      rw [hmem] at hg
      revert g
      decide

end Builder

end Ngram
