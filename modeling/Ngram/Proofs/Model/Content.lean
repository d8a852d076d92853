import Ngram.Proofs.Model.Listed

/-!
# Collections with the same content

A collection counts for nothing but its last weights for each n-gram. However it was filled, two
collections with the same last weights are accepted together, up to the room for their tables, and a
model of one holds what a model of the other does.

> `same_listed`: calls that leave the same last weights leave the same content.
> `Same.accepted`, `Same.built`: the same content is accepted and held.
-/

namespace Ngram

namespace Builder

variable {b b' : Builder}

/-- Two collections agree about everything that `build` asks for. -/
structure Same (b b' : Builder) : Prop where
  order : b.order = b'.order
  vocabulary : b.vocabulary = b'.vocabulary
  rejected : b.rejected = b'.rejected
  grams : ∀ g : Gram, b.grams[g]? = b'.grams[g]?

/-- The buckets of all tables can be counted and held. -/
structure Room (b : Builder) (settings : TableSettings) : Prop where
  fits : ∀ length, 2 ≤ length → length < b.order →
    Table.Fits MiddleEntry (b.ofLength length).length settings
  longestFits : Table.Fits LongestEntry
    (if 1 < b.order then (b.ofLength b.order).length else 0) settings

theorem Accepted.room {settings : TableSettings} (h : b.Accepted settings) : b.Room settings :=
  ⟨h.fits, h.longestFits⟩

/-- There is room for listed n-grams if there is for as many as are listed, each counted once. -/
theorem room_listed {order : Nat} {vocabulary : Vocabulary} {settings : TableSettings}
    {entries : List (Gram × GivenWeights)}
    (hlen : ∀ e ∈ entries, 0 < e.1.length ∧ e.1.length ≤ maxOrder)
    (hfits : ∀ length, 2 ≤ length → length < order →
      Table.Fits MiddleEntry (countOf (entries.map Prod.fst).dedup length) settings)
    (hlongest : Table.Fits LongestEntry
      (if 1 < order then countOf (entries.map Prod.fst).dedup order else 0) settings) :
    (listed order vocabulary entries).Room settings := by
  obtain ⟨horder, -⟩ := listed_keeps order vocabulary hlen
  refine ⟨?_, ?_⟩
  · intro length hlow hhigh
    rw [horder] at hhigh
    rw [length_ofLength_listed_dedup hlen]
    exact hfits length hlow hhigh
  · rw [horder, length_ofLength_listed_dedup hlen]
    exact hlongest

section Filling

variable {g : Gram} {entries : List (Gram × GivenWeights)}

theorem getElem?_add {w : GivenWeights} {g' : Gram} (hg : 0 < g.length ∧ g.length ≤ maxOrder) :
    (b.add g w).grams[g']? = if g = g' then some w else b.grams[g']? := by
  rw [add, dif_pos hg]
  show (b.grams.insert g w)[g']? = _
  rw [Std.HashMap.getElem?_insert]
  simp only [beq_iff_eq]

/-- Of the weights that an n-gram was given the last ones count. -/
theorem getElem?_addAll (hlen : ∀ e ∈ entries, 0 < e.1.length ∧ e.1.length ≤ maxOrder) :
    (b.addAll entries).grams[g]? = (entries.reverse.lookup g).or b.grams[g]? := by
  induction entries generalizing b with
  | nil => rfl
  | cons e entries ih =>
    rw [List.forall_mem_cons] at hlen
    show ((b.add e.1 e.2).addAll entries).grams[g]? = _
    rw [ih hlen.2, getElem?_add hlen.1, List.reverse_cons, List.lookup_append, Option.or_assoc]
    congr 1
    by_cases heq : e.1 = g
    · subst heq
      simp [List.lookup]
    · simp [List.lookup, heq, beq_eq_false_iff_ne.2 (Ne.symm heq)]

/-- A collection holds the weights that each n-gram was given last. -/
theorem getElem?_listed {order : Nat} {vocabulary : Vocabulary}
    (hlen : ∀ e ∈ entries, 0 < e.1.length ∧ e.1.length ≤ maxOrder) :
    (listed order vocabulary entries).grams[g]? = entries.reverse.lookup g := by
  rw [listed, getElem?_addAll hlen, Std.HashMap.getElem?_empty, Option.or_none]

/-- **Calls that leave the same last weights leave the same content.** -/
theorem same_listed {order : Nat} {vocabulary : Vocabulary}
    {calls calls' : List (Gram × GivenWeights)}
    (hlen : ∀ e ∈ calls, 0 < e.1.length ∧ e.1.length ≤ maxOrder)
    (hlen' : ∀ e ∈ calls', 0 < e.1.length ∧ e.1.length ≤ maxOrder)
    (hlast : ∀ g, calls.reverse.lookup g = calls'.reverse.lookup g) :
    (listed order vocabulary calls).Same (listed order vocabulary calls') := by
  obtain ⟨horder, hvocabulary, hrejected⟩ := listed_keeps order vocabulary hlen
  obtain ⟨horder', hvocabulary', hrejected'⟩ := listed_keeps order vocabulary hlen'
  refine ⟨horder.trans horder'.symm, hvocabulary.trans hvocabulary'.symm,
    hrejected.trans hrejected'.symm, ?_⟩
  intro g
  rw [getElem?_listed hlen, getElem?_listed hlen', hlast]

end Filling

namespace Same

theorem symm (h : b.Same b') : b'.Same b :=
  ⟨h.order.symm, h.vocabulary.symm, h.rejected.symm, fun g => (h.grams g).symm⟩

theorem mem_iff (h : b.Same b') {g : Gram} : g ∈ b.grams ↔ g ∈ b'.grams := by
  rw [Std.HashMap.mem_iff_isSome_getElem?, Std.HashMap.mem_iff_isSome_getElem?, h.grams]

theorem given_eq (h : b.Same b') : b.given = b'.given := by
  have hget : ∀ g given, b.grams.getD g given = b'.grams.getD g given := by
    intro g given
    rw [Std.HashMap.getD_eq_getD_getElem?, Std.HashMap.getD_eq_getD_getElem?, h.grams]
  funext g
  rw [given, given, fallback, fallback, h.vocabulary, hget, hget]

/-- The n-grams of one length are the same, in whatever order each map has them. -/
theorem perm_ofLength (h : b.Same b') (length : Nat) :
    (b.ofLength length).Perm (b'.ofLength length) := by
  refine (List.perm_ext_iff_of_nodup (nodup_ofLength length).of_map
    (nodup_ofLength length).of_map).2 ?_
  intro e
  rw [mem_ofLength, mem_ofLength, h.grams]

theorem weights_extensions (h : b.Same b') : weights b.extensions = weights b'.extensions := by
  apply weights_congr
  · intro g
    rw [Bool.eq_iff_iff, contains_ended_iff, contains_ended_iff]
    simp only [h.mem_iff]
  · intro g
    rw [Bool.eq_iff_iff, contains_begun_iff, contains_begun_iff]
    simp only [h.mem_iff]

theorem unigrams_eq (h : b.Same b') :
    b.unigrams b.extensions = b'.unigrams b'.extensions := by
  apply Array.ext
  · rw [size_unigrams, size_unigrams, h.vocabulary]
  · intro i _ _
    simp only [unigrams, Array.getElem_ofFn, h.weights_extensions]
    exact congrArg (weights _ _) (congrFun h.given_eq _)

theorem perm_entriesOf {α : Type} (h : b.Same b') (length : Nat)
    (entry : Gram → GivenWeights → α) :
    (b.entriesOf length entry).Perm (b'.entriesOf length entry) :=
  (h.perm_ofLength length).map _

theorem middleEntry_eq (h : b.Same b') : b.middleEntry = b'.middleEntry := by
  funext g given
  rw [middleEntry, middleEntry, h.weights_extensions]

theorem wellFormed (h : b.Same b') (hb : b.WellFormed) : b'.WellFormed where
  vocabulary := h.vocabulary ▸ hb.vocabulary
  order_pos := h.order ▸ hb.order_pos
  order_le := h.order ▸ hb.order_le
  rejected := h.rejected ▸ hb.rejected
  length_le := fun g hg => h.order ▸ hb.length_le g (h.mem_iff.2 hg)
  inside := fun g hg => h.vocabulary ▸ hb.inside g (h.mem_iff.2 hg)
  suffix := fun g hg hlen => h.mem_iff.1 (hb.suffix g (h.mem_iff.2 hg) hlen)

theorem keyed (h : b.Same b') {length : Nat} (hb : b.Keyed length) : b'.Keyed length where
  ne_zero := fun g hg => hb.ne_zero g (h.mem_iff.2 hg)
  injective := fun g hg g' hg' => hb.injective g (h.mem_iff.2 hg) g' (h.mem_iff.2 hg')

theorem room (h : b.Same b') {settings : TableSettings} (hb : b.Room settings) :
    b'.Room settings where
  fits := fun length hlow hhigh => (h.perm_ofLength length).length_eq ▸
    hb.fits length hlow (h.order ▸ hhigh)
  longestFits := by
    rw [← h.order, ← (h.perm_ofLength b.order).length_eq]
    exact hb.longestFits

/-- The same content is accepted with any settings that leave room for the tables. -/
theorem accepted (h : b.Same b') {settings settings' : TableSettings}
    (hvalid : settings'.validate = .ok ()) (hroom : b'.Room settings')
    (hb : b.Accepted settings) : b'.Accepted settings' where
  valid := hvalid
  wellFormed := h.wellFormed hb.wellFormed
  keyed := fun length hlow hhigh => h.keyed (hb.keyed length hlow (h.order ▸ hhigh))
  fits := hroom.fits
  longestFits := hroom.longestFits

/-- A model of a collection holds what any other one with the same content asks for. -/
theorem built (h : b.Same b') {m : Model} (hb : b.Built m) : b'.Built m where
  vocabulary := hb.vocabulary.trans h.vocabulary
  order := hb.order.trans h.order
  unigrams := hb.unigrams.trans h.unigrams_eq
  middle := by
    intro level hlevel
    obtain ⟨t, ht, hholds⟩ := hb.middle level (h.order ▸ hlevel)
    rw [h.middleEntry_eq] at hholds
    exact ⟨t, ht, hholds.of_perm (h.perm_entriesOf _ _)⟩
  longest := by
    intro hone
    rw [← h.order] at hone ⊢
    exact (hb.longest hone).of_perm (h.perm_entriesOf _ _)

end Same

end Builder

end Ngram
