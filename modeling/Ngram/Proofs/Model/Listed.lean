import Mathlib.Data.List.Dedup
import Mathlib.Data.List.Infix
import Mathlib.Tactic.MkIffOfInductiveProp
import Ngram.Proofs.Model.Lookup

/-!
# Collections given as a list

A collection is filled n-gram by n-gram. If no n-gram is listed twice, all that is asked of a
collection can be asked of the list, where it can be evaluated.

> `mem_listed`, `length_ofLength_listed`: what is collected, and how much of each length.
> `wellFormed_listed_iff`, `keyed_listed_iff`: the checks and the keys, by the list.
> `accepted_listed`: a list that passes its checks is accepted.
-/

namespace Ngram

namespace Builder

variable {b : Builder} {g : Gram} {entries : List (Gram × GivenWeights)}

/-- Adds n-grams one after another. -/
def addAll (b : Builder) (entries : List (Gram × GivenWeights)) : Builder :=
  entries.foldl (fun b e => b.add e.1 e.2) b

/-- The collection of listed n-grams. -/
def listed (order : Nat) (vocabulary : Vocabulary) (entries : List (Gram × GivenWeights)) :
    Builder :=
  addAll { order, vocabulary } entries

theorem mem_add {g' : Gram} {w : GivenWeights} (hg : 0 < g.length ∧ g.length ≤ maxOrder) :
    g' ∈ (b.add g w).grams ↔ g' = g ∨ g' ∈ b.grams := by
  rw [add, dif_pos hg]
  show g' ∈ b.grams.insert g w ↔ _
  rw [Std.HashMap.mem_insert, beq_iff_eq]
  exact or_congr_left eq_comm

theorem add_keeps {w : GivenWeights} (hg : 0 < g.length ∧ g.length ≤ maxOrder) :
    (b.add g w).order = b.order ∧ (b.add g w).vocabulary = b.vocabulary ∧
      (b.add g w).rejected = b.rejected := by
  rw [add, dif_pos hg]
  exact ⟨rfl, rfl, rfl⟩

theorem mem_addAll (hlen : ∀ e ∈ entries, 0 < e.1.length ∧ e.1.length ≤ maxOrder) :
    g ∈ (b.addAll entries).grams ↔ g ∈ entries.map Prod.fst ∨ g ∈ b.grams := by
  induction entries generalizing b with
  | nil => simp [addAll]
  | cons e entries ih =>
    rw [List.forall_mem_cons] at hlen
    show g ∈ ((b.add e.1 e.2).addAll entries).grams ↔ _
    rw [ih hlen.2, mem_add hlen.1, List.map_cons, List.mem_cons]
    tauto

theorem addAll_keeps (hlen : ∀ e ∈ entries, 0 < e.1.length ∧ e.1.length ≤ maxOrder) :
    (b.addAll entries).order = b.order ∧ (b.addAll entries).vocabulary = b.vocabulary ∧
      (b.addAll entries).rejected = b.rejected := by
  induction entries generalizing b with
  | nil => exact ⟨rfl, rfl, rfl⟩
  | cons e entries ih =>
    rw [List.forall_mem_cons] at hlen
    obtain ⟨horder, hvocabulary, hrejected⟩ := ih (b := b.add e.1 e.2) hlen.2
    obtain ⟨horder', hvocabulary', hrejected'⟩ := add_keeps (b := b) (w := e.2) hlen.1
    exact ⟨horder.trans horder', hvocabulary.trans hvocabulary', hrejected.trans hrejected'⟩

/-- No n-gram is rejected if each of them has a length that some model can have. -/
theorem rejected_addAll : (b.addAll entries).rejected = none ↔
    b.rejected = none ∧ ∀ e ∈ entries, 0 < e.1.length ∧ e.1.length ≤ maxOrder := by
  induction entries generalizing b with
  | nil => simp [addAll]
  | cons e entries ih =>
    show ((b.add e.1 e.2).addAll entries).rejected = none ↔ _
    rw [ih, List.forall_mem_cons, ← and_assoc]
    apply and_congr_left
    intro _
    by_cases he : 0 < e.1.length ∧ e.1.length ≤ maxOrder
    · rw [(add_keeps he).2.2]
      exact (and_iff_left he).symm
    · rw [add, dif_neg he]
      cases b.rejected with
      | none => simp [he]
      | some length => simp

section Listed

/-- The listed n-grams of one length. -/
def countOf (grams : List Gram) (length : Nat) : Nat :=
  (grams.filter fun g => g.length = length).length

variable {order : Nat} {vocabulary : Vocabulary}

theorem listed_keeps (order : Nat) (vocabulary : Vocabulary)
    (hlen : ∀ e ∈ entries, 0 < e.1.length ∧ e.1.length ≤ maxOrder) :
    (listed order vocabulary entries).order = order ∧
      (listed order vocabulary entries).vocabulary = vocabulary ∧
      (listed order vocabulary entries).rejected = none :=
  addAll_keeps hlen

theorem mem_listed (hlen : ∀ e ∈ entries, 0 < e.1.length ∧ e.1.length ≤ maxOrder) :
    g ∈ (listed order vocabulary entries).grams ↔ g ∈ entries.map Prod.fst := by
  rw [listed, mem_addAll hlen]
  simp

/-- Listed n-grams whose keys are told apart from those of all parts of a history are not mistaken
for these. -/
theorem clear_listed {history : List Word}
    (hlen : ∀ e ∈ entries, 0 < e.1.length ∧ e.1.length ≤ maxOrder)
    (hkeys : ∀ g ∈ history.tails.flatMap List.inits, ∀ g' ∈ entries.map Prod.fst,
      g'.length = g.length → g'.key = Gram.key g → g' = g) {g : Gram} (hg : g <:+: history) :
    (listed order vocabulary entries).Clear g := by
  obtain ⟨tail, hfront, hsuffix⟩ := List.infix_iff_prefix_suffix.1 hg
  have hpart : g ∈ history.tails.flatMap List.inits :=
    List.mem_flatMap.2 ⟨tail, (List.mem_tails _ _).2 hsuffix, (List.mem_inits _ _).2 hfront⟩
  intro hnot g' hg' hlength hkey
  rw [hkeys g hpart g' ((mem_listed hlen).1 hg') hlength hkey] at hg'
  exact hnot hg'

/-- There are as many n-grams of a length as there are in a list of all of them. -/
theorem length_ofLength_eq_countOf {grams : List Gram} {length : Nat} (hnodup : grams.Nodup)
    (hmem : ∀ g, g.length = length → (g ∈ b.grams ↔ g ∈ grams)) :
    (b.ofLength length).length = countOf grams length := by
  rw [← List.length_map Prod.fst]
  -- two lists without repetitions and with the same members are as long as each other
  have hperm := List.perm_ext_iff_of_nodup (nodup_ofLength (b := b) length)
    (hnodup.filter fun g => decide (g.length = length))
  refine (hperm.2 ?_).length_eq
  intro g
  rw [List.mem_filter, List.mem_map]
  constructor
  · intro h
    obtain ⟨e, he, rfl⟩ := h
    obtain ⟨hgram, hlength⟩ := mem_of_mem_ofLength he
    exact ⟨(hmem e.1 hlength).1 hgram, decide_eq_true hlength⟩
  · intro h
    obtain ⟨hgram, hlength⟩ := h
    obtain rfl := of_decide_eq_true hlength
    exact ⟨_, exists_mem_ofLength ((hmem g rfl).2 hgram), rfl⟩

/-- There are as many n-grams of a length as are listed, each of them counted once. -/
theorem length_ofLength_listed_dedup
    (hlen : ∀ e ∈ entries, 0 < e.1.length ∧ e.1.length ≤ maxOrder) (length : Nat) :
    ((listed order vocabulary entries).ofLength length).length =
      countOf (entries.map Prod.fst).dedup length :=
  length_ofLength_eq_countOf (List.nodup_dedup _) fun _ _ =>
    (mem_listed hlen).trans List.mem_dedup.symm

/-- If no n-gram is listed twice, there are as many of a length as are listed. -/
theorem length_ofLength_listed (hlen : ∀ e ∈ entries, 0 < e.1.length ∧ e.1.length ≤ maxOrder)
    (hnodup : (entries.map Prod.fst).Nodup) (length : Nat) :
    ((listed order vocabulary entries).ofLength length).length =
      countOf (entries.map Prod.fst) length := by
  rw [length_ofLength_listed_dedup hlen, hnodup.dedup]

/-- The checks can be made on the list. -/
theorem wellFormed_listed_iff (hlen : ∀ e ∈ entries, 0 < e.1.length ∧ e.1.length ≤ maxOrder) :
    (listed order vocabulary entries).WellFormed ↔
      vocabulary.Valid ∧ (0 < order ∧ order ≤ maxOrder) ∧
        (∀ g ∈ entries.map Prod.fst, g.length ≤ order) ∧
        (∀ g ∈ entries.map Prod.fst, ∀ word ∈ g, word < vocabulary.bound) ∧
        ∀ g ∈ entries.map Prod.fst, 3 ≤ g.length → g.tail ∈ entries.map Prod.fst := by
  obtain ⟨horder, hvocabulary, hrejected⟩ := listed_keeps order vocabulary hlen
  have hmem {g : Gram} : g ∈ (listed order vocabulary entries).grams ↔ g ∈ entries.map Prod.fst :=
    mem_listed hlen
  constructor
  · intro h
    have hlength := h.length_le
    have hinside := h.inside
    have hvalid := h.vocabulary
    have hrange := And.intro h.order_pos h.order_le
    rw [horder] at hlength hrange
    rw [hvocabulary] at hinside hvalid
    exact ⟨hvalid, hrange, fun g hg => hlength g (hmem.2 hg), fun g hg => hinside g (hmem.2 hg),
      fun g hg hthree => hmem.1 (h.suffix g (hmem.2 hg) hthree)⟩
  · rintro ⟨hvalid, hrange, hlength, hinside, hsuffix⟩
    rw [← hvocabulary] at hvalid hinside
    rw [← horder] at hlength hrange
    exact ⟨hvalid, hrange.1, hrange.2, hrejected, fun g hg => hlength g (hmem.1 hg),
      fun g hg => hinside g (hmem.1 hg), fun g hg hthree => hmem.2 (hsuffix g (hmem.1 hg) hthree)⟩

/-- So can the keys of each length be compared. -/
theorem keyed_listed_iff (hlen : ∀ e ∈ entries, 0 < e.1.length ∧ e.1.length ≤ maxOrder)
    {length : Nat} : (listed order vocabulary entries).Keyed length ↔
      (∀ g ∈ entries.map Prod.fst, g.length = length → g.key ≠ 0) ∧
        ∀ g ∈ entries.map Prod.fst, ∀ g' ∈ entries.map Prod.fst, g.length = length →
          g'.length = length → g.key = g'.key → g = g' := by
  have hmem {g : Gram} : g ∈ (listed order vocabulary entries).grams ↔ g ∈ entries.map Prod.fst :=
    mem_listed hlen
  constructor
  · intro h
    exact ⟨fun g hg => h.ne_zero g (hmem.2 hg),
      fun g hg g' hg' => h.injective g (hmem.2 hg) g' (hmem.2 hg')⟩
  · rintro ⟨hzero, hinjective⟩
    exact ⟨fun g hg => hzero g (hmem.1 hg),
      fun g hg g' hg' => hinjective g (hmem.1 hg) g' (hmem.1 hg')⟩

/-- What a list of n-grams has to pass. -/
@[mk_iff]
structure Listable (order : Nat) (vocabulary : Vocabulary) (settings : TableSettings)
    (grams : List Gram) : Prop where
  valid : settings.validate = .ok ()
  vocabulary_valid : vocabulary.validate = .ok ()
  order_pos : 0 < order
  order_le : order ≤ maxOrder
  nodup : grams.Nodup
  lengths : ∀ g ∈ grams, 0 < g.length ∧ g.length ≤ order
  inside : ∀ g ∈ grams, g.all (· < vocabulary.bound) = true
  suffix : ∀ g ∈ grams, 3 ≤ g.length → g.tail ∈ grams
  key_ne_zero : ∀ g ∈ grams, 2 ≤ g.length → g.key ≠ 0
  injective : ∀ g ∈ grams, ∀ g' ∈ grams, g.length = g'.length → g.key = g'.key → g = g'
  fits : ∀ length ∈ List.range' 2 (order - 2),
    Table.Fits MiddleEntry (countOf grams length) settings
  longestFits : Table.Fits LongestEntry (if 1 < order then countOf grams order else 0) settings

instance {α : Type} [Entry α] (entries : Nat) (settings : TableSettings) :
    Decidable (Table.Fits α entries settings) :=
  inferInstanceAs (Decidable (_ ∧ _))

instance (order : Nat) (vocabulary : Vocabulary) (settings : TableSettings) (grams : List Gram) :
    Decidable (Listable order vocabulary settings grams) :=
  decidable_of_iff _ (listable_iff _ _ _ _).symm

/-- A list that passes is accepted. -/
theorem accepted_listed {settings : TableSettings}
    (h : Listable order vocabulary settings (entries.map Prod.fst)) :
    (listed order vocabulary entries).Accepted settings := by
  have hlen : ∀ e ∈ entries, 0 < e.1.length ∧ e.1.length ≤ maxOrder := fun e he =>
    have hlength := h.lengths e.1 (List.mem_map_of_mem he)
    ⟨hlength.1, Nat.le_trans hlength.2 h.order_le⟩
  obtain ⟨horder, -⟩ := listed_keeps order vocabulary hlen
  have hcount (length : Nat) : ((listed order vocabulary entries).ofLength length).length =
      countOf (entries.map Prod.fst) length :=
    length_ofLength_listed hlen h.nodup length
  refine ⟨h.valid, (wellFormed_listed_iff hlen).2 ⟨Vocabulary.validate_eq_ok.1 h.vocabulary_valid,
    ⟨h.order_pos, h.order_le⟩, fun g hg => (h.lengths g hg).2, ?_, h.suffix⟩, ?_, ?_, ?_⟩
  · intro g hg word hword
    exact of_decide_eq_true (List.all_eq_true.1 (h.inside g hg) word hword)
  · intro length hlow _
    refine (keyed_listed_iff hlen).2 ⟨?_, ?_⟩
    · intro g hg hlength
      exact h.key_ne_zero g hg (by omega)
    · intro g hg g' hg' hlength hlength'
      exact h.injective g hg g' hg' (hlength.trans hlength'.symm)
  · intro length hlow hhigh
    rw [hcount]
    exact h.fits length (List.mem_range'_1.2 ⟨hlow, by omega⟩)
  · rw [horder, hcount]
    exact h.longestFits

end Listed

end Builder

end Ngram
