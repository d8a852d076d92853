import Ngram.Schedule.Slot

/-!
# Streams as sentences

What `Slot.collect` takes off the front of a stream depends on nothing but the stream, the
vocabulary and the capacity. Taken off again and again, the sentences of a stream are a list of
their own, or the first fault of the stream.

> `collect_append`: a sentence at the front of a stream is taken whole, and nothing behind it.
> `collect_ready_iff`: and nothing else is ever taken for a sentence.
> `sentences_eq_ok_iff`: a stream has sentences exactly if it is their concatenation.
> `sentences_append`: a stream that is cut at the end of a sentence has those of both parts.
-/

namespace Ngram

/-- A word stands last in a list, and nowhere else. -/
def EndsOnce (last : Word) (words : List Word) : Prop :=
  ∃ front, words = front ++ [last] ∧ last ∉ front

/-- The words of a sentence: words of the vocabulary, not too many, and its end last. -/
structure IsSentence (v : Vocabulary) (capacity : Nat) (words : List Word) : Prop where
  ends : EndsOnce v.endSentence words
  inside : ∀ word ∈ words, word < v.bound
  length_le : words.length ≤ capacity

theorem IsSentence.mono {v : Vocabulary} {capacity capacity' : Nat} {words : List Word}
    (h : IsSentence v capacity words) (hle : capacity ≤ capacity') : IsSentence v capacity' words :=
  ⟨h.ends, h.inside, Nat.le_trans h.length_le hle⟩

theorem EndsOnce.ne_nil {last : Word} {words : List Word} (h : EndsOnce last words) :
    words ≠ [] := by
  obtain ⟨front, rfl, -⟩ := h
  simp

theorem EndsOnce.cons {last word : Word} {words : List Word} (h : EndsOnce last words)
    (hne : word ≠ last) : EndsOnce last (word :: words) := by
  obtain ⟨front, rfl, hfront⟩ := h
  refine ⟨word :: front, rfl, ?_⟩
  intro hmem
  rcases List.mem_cons.1 hmem with heq | hmem
  · exact hne heq.symm
  · exact hfront hmem

namespace Slot

variable {v : Vocabulary} {capacity : Nat}

theorem check_eq_ok {word : Word} : v.check word = .ok () ↔ word < v.bound := by
  unfold Vocabulary.check
  split <;> simp [*]

/-- Words in front of the end are added one by one, while there is room for more. -/
theorem collect_front {front : List Word} {acc : Array Word} {items : List Item}
    (hinside : ∀ word ∈ front, word < v.bound) (hends : v.endSentence ∉ front)
    (hroom : acc.size + front.length ≤ capacity) :
    collect v capacity acc (front.map .ok ++ items) =
      collect v capacity (acc ++ front.toArray) items := by
  induction front generalizing acc with
  | nil => simp
  | cons word front ih =>
    rw [List.forall_mem_cons] at hinside
    rw [List.mem_cons, not_or] at hends
    rw [List.length_cons] at hroom
    rw [List.map_cons, List.cons_append, collect, check_eq_ok.2 hinside.1]
    dsimp only
    rw [if_neg (by omega), if_neg (Ne.symm hends.1),
      ih hinside.2 hends.2 (by rw [Array.size_push]; omega)]
    simp

/-- A sentence at the front of a stream is taken whole, and nothing behind it. -/
theorem collect_append {words : List Word} {items : List Item} (h : IsSentence v capacity words) :
    collect v capacity #[] (words.map .ok ++ items) = (.ok .ready, words.toArray, items) := by
  obtain ⟨⟨front, rfl, hends⟩, hinside, hlen⟩ := h
  rw [List.length_append, List.length_singleton] at hlen
  have hlast : v.endSentence < v.bound := hinside _ (by simp)
  rw [List.map_append, List.append_assoc, collect_front (fun w hw => hinside w (by simp [hw])) hends
    (by simpa using by omega)]
  simp only [List.map_cons, List.map_nil, List.cons_append, List.nil_append]
  rw [collect, check_eq_ok.2 hlast]
  dsimp only
  rw [if_neg (by simp; omega), if_pos rfl]
  simp

/-- What is taken for a sentence came off the front of the stream, ends with its only end, and was
checked word by word. -/
theorem collect_ready_words {acc words : Array Word} {items rest : List Item}
    (hroom : acc.size ≤ capacity) (h : collect v capacity acc items = (.ok .ready, words, rest)) :
    ∃ taken : List Word, words = acc ++ taken.toArray ∧ items = taken.map .ok ++ rest ∧
      EndsOnce v.endSentence taken ∧ (∀ word ∈ taken, word < v.bound) ∧ words.size ≤ capacity := by
  induction items generalizing acc with
  | nil =>
    rw [collect] at h
    split at h <;> cases h
  | cons item items ih =>
    cases item with
    | error e => cases h
    | ok word =>
      rw [collect] at h
      split at h
      next => cases h
      next hcheck =>
        have hword : word < v.bound := check_eq_ok.1 hcheck
        split at h
        next => cases h
        next hmore =>
          split at h
          next hend =>
            cases h
            refine ⟨[word], by simp, rfl, ⟨[], by simp [hend], by simp⟩, by simpa using hword, ?_⟩
            rw [Array.size_push]
            omega
          next hend =>
            obtain ⟨taken, hwords, hitems, hends, hinside, hsize⟩ :=
              ih (by rw [Array.size_push]; omega) h
            refine ⟨word :: taken, by simp [hwords], by simp [hitems], hends.cons hend, ?_, hsize⟩
            exact List.forall_mem_cons.2 ⟨hword, hinside⟩

/-- A stream gives up a sentence exactly if it begins with one. -/
theorem collect_ready_iff {words : Array Word} {items rest : List Item} :
    collect v capacity #[] items = (.ok .ready, words, rest) ↔
      IsSentence v capacity words.toList ∧ items = words.toList.map .ok ++ rest := by
  constructor
  · intro h
    obtain ⟨taken, rfl, rfl, hends, hinside, hsize⟩ := collect_ready_words (Nat.zero_le _) h
    rw [Array.empty_append] at hsize ⊢
    exact ⟨⟨hends, hinside, by simpa using hsize⟩, rfl⟩
  · intro h
    obtain ⟨hsentence, rfl⟩ := h
    rw [collect_append hsentence]

/-- Only the end of a stream is taken for it. -/
theorem collect_exhausted {acc words : Array Word} {items rest : List Item}
    (h : collect v capacity acc items = (.ok .exhausted, words, rest)) :
    items = [] ∧ acc = #[] ∧ words = #[] ∧ rest = [] := by
  induction items generalizing acc with
  | nil =>
    rw [collect] at h
    split at h
    next hempty =>
      obtain rfl := Array.isEmpty_iff.1 hempty
      cases h
      exact ⟨rfl, rfl, rfl, rfl⟩
    next => cases h
  | cons item items ih =>
    cases item with
    | error e => cases h
    | ok word =>
      rw [collect] at h
      split at h
      next => cases h
      next =>
        split at h
        next => cases h
        next =>
          split at h
          next => cases h
          next => exact absurd (ih h).2.1 (by simp)

/-- Words that end with the end of a sentence keep a sentence to themselves: it is taken from them
whatever the stream holds behind them, and what is left of them ends in the same way. -/
theorem collect_of_getLast? (capacity : Nat) (acc : Array Word) {words : List Word}
    (h : words.getLast? = some v.endSentence) :
    ∃ result acc' rest, result ≠ .ok .exhausted ∧ rest.length < words.length ∧
      (rest ≠ [] → rest.getLast? = some v.endSentence) ∧ ∀ items,
        collect v capacity acc (words.map .ok ++ items) =
          (result, acc', rest.map .ok ++ items) := by
  induction words generalizing acc with
  | nil => cases h
  | cons word words ih =>
    have hlast : words ≠ [] → words.getLast? = some v.endSentence := by
      intro hne
      rwa [List.getLast?_cons_of_ne_nil hne] at h
    simp only [List.map_cons, List.cons_append, collect]
    cases v.check word with
    | error e => exact ⟨.error e, acc, words, by simp, by simp, hlast, fun _ => rfl⟩
    | ok =>
      dsimp only
      split
      next => exact ⟨_, acc, words, by simp, by simp, hlast, fun _ => rfl⟩
      next =>
        split
        next => exact ⟨_, acc.push word, words, by simp, by simp, hlast, fun _ => rfl⟩
        next hend =>
          -- the last word is the end of a sentence, so this one is not the last
          have hne : words ≠ [] := by
            rintro rfl
            exact hend (by simpa using h)
          obtain ⟨result, acc', rest, hresult, hlen, hrest, hcollect⟩ :=
            ih (acc.push word) (hlast hne)
          exact ⟨result, acc', rest, hresult, Nat.lt_succ_of_lt hlen, hrest, hcollect⟩

end Slot

namespace Vocabulary

variable {v : Vocabulary} {capacity : Nat}

/-- The sentences of a stream, or its first fault. -/
def sentences (v : Vocabulary) (capacity : Nat) (items : List Item) :
    Except Error (List (List Word)) :=
  match _h : Slot.collect v capacity #[] items with
  | (.error e, _, _) => .error e
  | (.ok .exhausted, _, _) => .ok []
  | (.ok .ready, words, rest) =>
    match v.sentences capacity rest with
    | .error e => .error e
    | .ok more => .ok (words.toList :: more)
termination_by items.length
decreasing_by exact Slot.collect_ready _h

theorem sentences_of_error {items rest : List Item} {words : Array Word} {e : Error}
    (h : Slot.collect v capacity #[] items = (.error e, words, rest)) :
    v.sentences capacity items = .error e := by
  rw [sentences]
  split
  next h' => rw [h] at h'; cases h'; rfl
  next h' => rw [h] at h'; cases h'
  next h' => rw [h] at h'; cases h'

theorem sentences_of_exhausted {items rest : List Item} {words : Array Word}
    (h : Slot.collect v capacity #[] items = (.ok .exhausted, words, rest)) :
    v.sentences capacity items = .ok [] := by
  rw [sentences]
  split
  next h' => rw [h] at h'; cases h'
  next h' => rfl
  next h' => rw [h] at h'; cases h'

theorem sentences_nil : v.sentences capacity [] = .ok [] := sentences_of_exhausted rfl

theorem sentences_of_ready {items rest : List Item} {words : Array Word}
    (h : Slot.collect v capacity #[] items = (.ok .ready, words, rest)) :
    v.sentences capacity items = (v.sentences capacity rest).map (words.toList :: ·) := by
  rw [sentences]
  split
  next h' => rw [h] at h'; cases h'
  next h' => rw [h] at h'; cases h'
  next h' =>
    rw [h] at h'
    cases h'
    cases v.sentences capacity rest with
    | error e => rfl
    | ok more => rfl

/-- **A stream has sentences exactly if it is their concatenation.** -/
theorem sentences_eq_ok_iff {items : List Item} {found : List (List Word)} :
    v.sentences capacity items = .ok found ↔
      items = found.flatten.map .ok ∧ ∀ s ∈ found, IsSentence v capacity s := by
  constructor
  · intro h
    generalize hlen : items.length = n
    induction n using Nat.strongRecOn generalizing items found with
    | ind n ih =>
      match hcollect : Slot.collect v capacity #[] items with
      | (.error e, words, rest) => rw [sentences_of_error hcollect] at h; cases h
      | (.ok .exhausted, words, rest) =>
        rw [sentences_of_exhausted hcollect] at h
        cases h
        exact ⟨(Slot.collect_exhausted hcollect).1, by simp⟩
      | (.ok .ready, words, rest) =>
        rw [sentences_of_ready hcollect] at h
        cases hmore : v.sentences capacity rest with
        | error e => rw [hmore] at h; cases h
        | ok more =>
          rw [hmore] at h
          cases h
          -- the induction goes on behind the sentence, where the stream is shorter
          have hlt : rest.length < n := hlen ▸ Slot.collect_ready hcollect
          obtain ⟨hsentence, hitems⟩ := Slot.collect_ready_iff.1 hcollect
          obtain ⟨hrest, hsentences⟩ := ih _ hlt hmore rfl
          refine ⟨?_, List.forall_mem_cons.2 ⟨hsentence, hsentences⟩⟩
          rw [hitems, hrest, List.flatten_cons, List.map_append]
  · intro h
    obtain ⟨rfl, hsentences⟩ := h
    induction found with
    | nil => exact sentences_of_exhausted rfl
    | cons s found ih =>
      rw [List.forall_mem_cons] at hsentences
      rw [List.flatten_cons, List.map_append,
        sentences_of_ready (Slot.collect_append hsentences.1), ih hsentences.2]
      rfl

/-- A stream is the concatenation of sentences in one way only. -/
theorem sentences_unique {found other : List (List Word)}
    (hfound : ∀ s ∈ found, IsSentence v capacity s)
    (hother : ∀ s ∈ other, EndsOnce v.endSentence s) (h : other.flatten = found.flatten) :
    other = found := by
  -- with room for the whole stream both are what is found in it
  generalize hroom : max capacity other.flatten.length = room
  have hlarge : v.sentences room (other.flatten.map .ok) = .ok other := by
    refine sentences_eq_ok_iff.2 ⟨rfl, fun s hs => ⟨hother s hs, ?_, ?_⟩⟩
    · intro word hword
      have hmem : word ∈ found.flatten := h ▸ List.mem_flatten.2 ⟨s, hs, hword⟩
      obtain ⟨t, ht, hwordt⟩ := List.mem_flatten.1 hmem
      exact (hfound t ht).inside word hwordt
    · have := (List.sublist_flatten_of_mem hs).length_le
      omega
  have hsame : v.sentences room (other.flatten.map .ok) = .ok found :=
    sentences_eq_ok_iff.2 ⟨by rw [h], fun s hs => (hfound s hs).mono (by omega)⟩
  rw [hlarge] at hsame
  exact Except.ok.inj hsame

/-- **A stream may be cut at the end of any sentence.** The sentences in front of the cut are
followed by those behind it, and a fault in front of it is met first. -/
theorem sentences_append {words : List Word} (h : words.getLast? = some v.endSentence)
    (items : List Item) :
    v.sentences capacity (words.map .ok ++ items) = (do
      let front ← v.sentences capacity (words.map .ok)
      let behind ← v.sentences capacity items
      .ok (front ++ behind)) := by
  generalize hlen : words.length = n
  induction n using Nat.strongRecOn generalizing words with
  | ind n ih =>
    obtain ⟨result, found, rest, hresult, hlt, hrest, hcollect⟩ :=
      Slot.collect_of_getLast? capacity #[] h
    have hfront := hcollect []
    simp only [List.append_nil] at hfront
    match result, hresult with
    | .error e, _ =>
      rw [sentences_of_error (hcollect items), sentences_of_error hfront]
      rfl
    | .ok .exhausted, hresult => exact absurd rfl hresult
    | .ok .ready, _ =>
      rw [sentences_of_ready (hcollect items), sentences_of_ready hfront]
      by_cases hne : rest = []
      · -- the sentence ends where the stream is cut
        subst hne
        rw [List.map_nil, List.nil_append, sentences_nil]
        cases v.sentences capacity items <;> rfl
      · rw [ih _ (hlen ▸ hlt) (hrest hne) rfl]
        cases v.sentences capacity (rest.map .ok) with
        | error e => rfl
        | ok front => cases v.sentences capacity items <;> rfl

end Vocabulary

end Ngram
