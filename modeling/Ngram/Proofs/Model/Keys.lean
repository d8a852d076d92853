import Ngram.Proofs.Model.Listed

/-!
# Which n-grams cannot share a key

A key has 64 bits and an n-gram can have more, so two n-grams of one order may share a key. They
differ in two words or more then. Both multipliers of `combine` are odd, which is why a step loses
nothing: from the new key, and either the old key or the word, the other one can be told
(`combine_injective`, `combine_word_injective`). So a difference in a single word gets into the
running key when the word is taken in, and no word behind it takes it out again.

> `Gram.key_append_inj`: words in front of two n-grams tell them apart no more and no less.
> `Gram.key_ne_of_differ`: n-grams that differ in a single word have different keys.
> `Gram.key_separates`: that, and the key that a look-up comes to is the one that was stored.
-/

namespace Ngram

/-- The inverse of `keyFactor` modulo `2 ^ 64`. -/
def keyInverse : UInt64 := 12405339100447226701

/-- The inverse of `wordFactor` modulo `2 ^ 64`. -/
def wordInverse : UInt64 := 17094588466778068151

theorem keyFactor_mul_keyInverse : keyFactor * keyInverse = 1 := rfl

theorem wordFactor_mul_wordInverse : wordFactor * wordInverse = 1 := rfl

/-- A word can be taken out of a key again. -/
theorem combine_undo (key : UInt64) (word : Word) :
    (combine key word ^^^ (1 + word.toUInt64) * wordFactor) * keyInverse = key := by
  rw [combine, UInt64.xor_assoc, UInt64.xor_self, UInt64.xor_zero, UInt64.mul_assoc,
    keyFactor_mul_keyInverse, UInt64.mul_one]

/-- The word can be read off a key if the key before it is known. -/
theorem combine_word (key : UInt64) (word : Word) :
    (combine key word ^^^ key * keyFactor) * wordInverse = 1 + word.toUInt64 := by
  rw [combine, UInt64.xor_comm (key * keyFactor), UInt64.xor_assoc, UInt64.xor_self,
    UInt64.xor_zero, UInt64.mul_assoc, wordFactor_mul_wordInverse, UInt64.mul_one]

/-- Taking a word in keeps different keys different. -/
theorem combine_injective (word : Word) : Function.Injective (combine · word) := by
  intro key key' h
  dsimp only at h
  rw [← combine_undo key word, h, combine_undo]

/-- Taking different words in makes one key into different keys. -/
theorem combine_word_injective (key : UInt64) : Function.Injective (combine key) := by
  intro word word' h
  have hsum : 1 + word.toUInt64 = 1 + word'.toUInt64 := by
    rw [← combine_word key word, h, combine_word]
  exact UInt32.toUInt64_inj.1 ((UInt64.add_right_inj 1).1 hsum)

namespace Gram

/-- The same words in front tell two n-grams apart no more and no less. -/
theorem key_append_inj (front : List Word) {g g' : Gram} (hg : g ≠ []) (hg' : g' ≠ []) :
    Gram.key (front ++ g) = Gram.key (front ++ g') ↔ g.key = g'.key := by
  induction front with
  | nil => rfl
  | cons word front ih =>
    rw [List.cons_append, List.cons_append, key_cons word (List.append_ne_nil_of_right_ne_nil _ hg),
      key_cons word (List.append_ne_nil_of_right_ne_nil _ hg')]
    exact (combine_injective word).eq_iff.trans ih

/-- Different oldest words in front of the same n-gram, or of none, make different keys. -/
theorem key_cons_inj {word word' : Word} {g : Gram} :
    Gram.key (word :: g) = Gram.key (word' :: g) ↔ word = word' := by
  by_cases hg : g = []
  · rw [hg, key_singleton, key_singleton]
    exact UInt32.toUInt64_inj
  · rw [key_cons word hg, key_cons word' hg]
    exact (combine_word_injective g.key).eq_iff

/-- Two n-grams of one length differ in the word at one position and in no other. -/
structure DifferAt (i : Nat) (g g' : Gram) : Prop where
  length_eq : g.length = g'.length
  ne : g[i]? ≠ g'[i]?
  same : ∀ j, j ≠ i → g[j]? = g'[j]?

/-- Such n-grams are made up of the same words in front, two different ones, and the same words
behind. -/
theorem DifferAt.exists_parts {i : Nat} {g g' : Gram} (h : DifferAt i g g') :
    ∃ front word word' behind, g = front ++ word :: behind ∧ g' = front ++ word' :: behind ∧
      word ≠ word' := by
  have hi : i < g.length := by
    by_contra hout
    refine h.ne ?_
    rw [List.getElem?_eq_none (Nat.le_of_not_lt hout),
      List.getElem?_eq_none (h.length_eq ▸ Nat.le_of_not_lt hout)]
  have hi' : i < g'.length := h.length_eq ▸ hi
  have hfront : g.take i = g'.take i := by
    refine List.ext_getElem? ?_
    intro j
    rw [List.getElem?_take, List.getElem?_take]
    split
    next hj => exact h.same j (Nat.ne_of_lt hj)
    next => rfl
  have hbehind : g.drop (i + 1) = g'.drop (i + 1) := by
    refine List.ext_getElem? ?_
    intro j
    rw [List.getElem?_drop, List.getElem?_drop]
    exact h.same _ (by omega)
  refine ⟨g.take i, g[i], g'[i], g.drop (i + 1), ?_, ?_, ?_⟩
  · rw [← List.drop_eq_getElem_cons hi, List.take_append_drop]
  · rw [hfront, hbehind, ← List.drop_eq_getElem_cons hi', List.take_append_drop]
  · intro heq
    exact h.ne (by rw [List.getElem?_eq_getElem hi, List.getElem?_eq_getElem hi', heq])

/-- N-grams that differ in a single word have different keys. -/
theorem key_ne_of_differ {i : Nat} {g g' : Gram} (h : DifferAt i g g') : g.key ≠ g'.key := by
  obtain ⟨front, word, word', behind, rfl, rfl, hne⟩ := h.exists_parts
  rw [Ne, key_append_inj front (List.cons_ne_nil _ _) (List.cons_ne_nil _ _), key_cons_inj]
  exact hne

end Gram

namespace Builder.Built

variable {b : Builder} {m : Model} {g : Gram} {older : Word}

/-- From the key of an n-gram, both phases of a look-up find what was collected with one more word
in front. -/
theorem complete_of_mem (h : b.Built m) (hg : g ≠ []) (hmem : older :: g ∈ b.grams)
    (hlen : (older :: g).length < b.order) :
    ∃ cursor, m.store.locate (g.length - 1) g.key older = .ok (Gram.key (older :: g), cursor) ∧
      m.store.complete (g.length - 1) (Gram.key (older :: g)) cursor =
        .ok (some (b.hitOf (older :: g))) := by
  have hpos := List.length_pos_iff.2 hg
  have hlevel : (older :: g).length = g.length - 1 + 2 := by rw [List.length_cons]; omega
  obtain ⟨t, ht, hholds⟩ := h.middle (g.length - 1) (hlevel ▸ hlen)
  have hfind : t.complete (Gram.key (older :: g)) (t.locate (Gram.key (older :: g))) =
      some (b.middleEntry (older :: g) (b.given (older :: g))) :=
    find_eq_some_of_mem hholds rfl hmem hlevel
  refine ⟨t.locate (Gram.key (older :: g)), ?_, ?_⟩
  · simp only [Store.locate, ht, Gram.key_cons older hg]
  · simp only [Store.complete, ht, hfind]
    rfl

end Builder.Built

namespace Gram

/-- **N-grams that differ in a single word never share a key**, whatever their length, the position
and the words. A key takes its oldest word in last, so that a look-up, which starts from the newest
word and takes in one older word after another, comes to the key that was stored: from each word of
a model that was built, and from the key of any n-gram, it finds what was collected with one more
word in front. -/
theorem key_separates :
    (∀ (i : Nat) (g g' : Gram), DifferAt i g g' → g.key ≠ g'.key) ∧
    (∀ (older : Word) (g : Gram), g ≠ [] → Gram.key (older :: g) = combine g.key older) ∧
    ∀ (b : Builder) (settings : TableSettings) (m : Model), b.build settings = .ok m →
      (∀ word, word < b.vocabulary.bound → m.store.unigram word = .ok (b.hitOf [word])) ∧
      ∀ (older : Word) (g : Gram), g ≠ [] → older :: g ∈ b.grams →
        ((older :: g).length < b.order → ∃ cursor,
          m.store.locate (g.length - 1) g.key older = .ok (Gram.key (older :: g), cursor) ∧
          m.store.complete (g.length - 1) (Gram.key (older :: g)) cursor =
            .ok (some (b.hitOf (older :: g)))) ∧
        ((older :: g).length = b.order →
          m.store.longestProb g.key older = some (b.given (older :: g)).prob) := by
  refine ⟨fun _ _ _ => key_ne_of_differ, fun older _ => key_cons older, ?_⟩
  intro b settings m hbuild
  have hbuilt := (Builder.built_of_build hbuild).2
  refine ⟨?_, ?_⟩
  · intro word hword
    rw [Store.unigram, hbuilt.unigrams, Builder.getElem?_unigrams hword]
    rfl
  · intro older g hg hmem
    exact ⟨hbuilt.complete_of_mem hg hmem, hbuilt.longestProb_of_mem hg hmem⟩

/-- A word behind itself, and another word in front of the two. -/
def echoGrams : List (Gram × GivenWeights) :=
  [([5, 5], ⟨⟨0xbf000000⟩, .zero, ⟨0xbf000000⟩⟩), ([3, 5, 5], ⟨⟨0xbe800000⟩, .zero, ⟨0xbe800000⟩⟩)]

/-- Three words with another one in the middle, and a look-up that takes in the word that it has
just taken in. -/
theorem key_separates_echo :
    Gram.key [3, 5, 5] ≠ Gram.key [3, 4, 5] ∧
      Gram.key [3, 5, 5] = combine (Gram.key [5, 5]) 3 ∧
      let b := Builder.listed 3 { bound := 6 } echoGrams
      ∃ m cursor, b.build {} = .ok m ∧ m.store.unigram 5 = .ok (b.hitOf [5]) ∧
        m.store.locate 0 (Gram.key [5]) 5 = .ok (Gram.key [5, 5], cursor) ∧
        m.store.complete 0 (Gram.key [5, 5]) cursor = .ok (some (b.hitOf [5, 5])) ∧
        m.store.longestProb (Gram.key [5, 5]) 3 = some (b.given [3, 5, 5]).prob := by
  obtain ⟨hdiffer, hcons, hfound⟩ := key_separates
  have hmiddle : DifferAt 1 [3, 5, 5] [3, 4, 5] := by
    refine ⟨rfl, by decide, ?_⟩
    intro j hj
    match j with
    | 0 => rfl
    | 1 => exact absurd rfl hj
    | j + 2 => rfl
  have hlen : ∀ e ∈ echoGrams, 0 < e.1.length ∧ e.1.length ≤ maxOrder := by decide
  have haccepted : (Builder.listed 3 { bound := 6 } echoGrams).Accepted {} :=
    Builder.accepted_listed (by decide +kernel)
  obtain ⟨horder, hvocabulary, -⟩ := Builder.listed_keeps 3 { bound := 6 } hlen
  obtain ⟨m, hm⟩ := Builder.build_eq_ok_iff.2 haccepted
  obtain ⟨hword, hlonger⟩ := hfound _ _ _ hm
  obtain ⟨cursor, hlocate, hcomplete⟩ := (hlonger 5 [5] (List.cons_ne_nil _ _)
    ((Builder.mem_listed hlen).2 (by decide))).1 (by rw [horder]; decide)
  have hlongest := (hlonger 3 [5, 5] (List.cons_ne_nil _ _)
    ((Builder.mem_listed hlen).2 (by decide))).2 horder.symm
  exact ⟨hdiffer 1 _ _ hmiddle, hcons 3 [5, 5] (List.cons_ne_nil _ _), m, cursor, hm,
    hword 5 (by rw [hvocabulary]; decide), hlocate, hcomplete, hlongest⟩

end Gram

end Ngram
