import Ngram.Proofs.Checks
import Ngram.Proofs.Schedule.Interleaving

/-!
# The first fault of a stream

A ring reads ahead: with many slots it has taken in many sentences before the first one is scored,
and a fault of the stream comes up while it is filled or at any turn. But items are only ever taken
in their order, so the fault that ends a run is the first one of the stream. What stands in front of
it are whole sentences and the beginning of another one, and of two faults of one item the first
test that fails counts.

> `collect_error_iff`: how taking one sentence fails, and what it leaves of the stream.
> `sentences_error_iff`: a stream has a fault exactly if one stands behind sentences of it.
> `score_decided`: a run succeeds exactly on a concatenation of sentences, and fails with the first
> fault otherwise, whatever the number of slots.
-/

namespace Ngram

/-- The beginning of a sentence: words of the vocabulary, not too many, and none of them the end. -/
structure IsBeginning (v : Vocabulary) (capacity : Nat) (words : List Word) : Prop where
  inside : ∀ word ∈ words, word < v.bound
  endless : v.endSentence ∉ words
  length_le : words.length ≤ capacity

/-- What is wrong with the item behind `taken` words of a sentence, or with there being none. -/
inductive Breaks (v : Vocabulary) (capacity taken : Nat) : Option Item → Error → Prop where
  /-- The error of whoever reads the stream. -/
  | reported (e : Error) : Breaks v capacity taken (some (.error e)) e
  | outside {word : Word} : ¬ word < v.bound →
      Breaks v capacity taken (some (.ok word)) (.input (.wordOutside word v.bound))
  | tooLong {word : Word} : word < v.bound → taken = capacity →
      Breaks v capacity taken (some (.ok word)) (.sentenceTooLong capacity)
  | ended : 0 < taken → Breaks v capacity taken none (.input (.endsInside taken))

/-- The first fault of a stream from which sentences are taken. -/
inductive FirstFault (v : Vocabulary) (capacity : Nat) : List Item → Error → Prop where
  | empty : FirstFault v capacity [] (.input .noSentences)
  | behind {sentences : List (List Word)} {front : List Word} {rest : List Item} {e : Error} :
      (∀ s ∈ sentences, IsSentence v capacity s) → IsBeginning v capacity front →
      Breaks v capacity front.length rest.head? e →
      FirstFault v capacity ((sentences.flatten ++ front).map .ok ++ rest) e

/-- What can be wrong with a corpus: something in its input, or a sentence for which there is no
room. -/
def Error.IsCorpusFault (capacity : Nat) (e : Error) : Prop :=
  (∃ fault, e = .input fault) ∨ e = .sentenceTooLong capacity

/-- Where a stream reports faults of its input only, its first fault is one of a corpus. -/
theorem FirstFault.isCorpusFault {v : Vocabulary} {capacity : Nat} {items : List Item} {e : Error}
    (h : FirstFault v capacity items e)
    (hitems : ∀ e', .error e' ∈ items → ∃ fault, e' = .input fault) :
    e.IsCorpusFault capacity := by
  cases h with
  | empty => exact Or.inl ⟨_, rfl⟩
  | @behind sentences front rest e _ _ hbreaks =>
    generalize hnext : rest.head? = next at hbreaks
    cases hbreaks with
    | reported e =>
      exact Or.inl (hitems e (List.mem_append_right _ (List.mem_of_head? hnext)))
    | outside => exact Or.inl ⟨_, rfl⟩
    | tooLong => exact Or.inr rfl
    | ended => exact Or.inl ⟨_, rfl⟩

theorem IsBeginning.nil (v : Vocabulary) (capacity : Nat) : IsBeginning v capacity [] :=
  ⟨by simp, by simp, Nat.zero_le _⟩

theorem IsBeginning.append_singleton {v : Vocabulary} {capacity : Nat} {words : List Word}
    {word : Word} (h : IsBeginning v capacity words) (hword : word < v.bound)
    (hne : word ≠ v.endSentence) (hroom : words.length < capacity) :
    IsBeginning v capacity (words ++ [word]) := by
  refine ⟨?_, ?_, by simpa using Nat.succ_le_of_lt hroom⟩
  · intro w hw
    rcases List.mem_append.1 hw with hw | hw
    · exact h.inside w hw
    · rwa [List.mem_singleton.1 hw]
  · intro hmem
    rcases List.mem_append.1 hmem with hmem | hmem
    · exact h.endless hmem
    · exact hne (List.mem_singleton.1 hmem).symm

namespace Slot

variable {v : Vocabulary} {capacity : Nat}

theorem check_eq_error {word : Word} {e : Error} :
    v.check word = .error e ↔ ¬ word < v.bound ∧ .input (.wordOutside word v.bound) = e := by
  unfold Vocabulary.check
  split <;> simp [*]

/-- Behind the beginning of a sentence, taking it fails exactly if it breaks off behind some more
words. The induction is on the stream. -/
theorem collect_error_cases {acc words : Array Word} {items rest : List Item} {e : Error}
    (hacc : IsBeginning v capacity acc.toList)
    (h : collect v capacity acc items = (.error e, words, rest)) :
    ∃ more tail, words = acc ++ List.toArray more ∧ items = more.map .ok ++ tail ∧
      rest = tail.tail ∧ IsBeginning v capacity words.toList ∧
      Breaks v capacity words.size tail.head? e := by
  induction items generalizing acc with
  | nil =>
    rw [collect] at h
    split at h
    next => cases h
    next hne =>
      have hpos : 0 < acc.size := Array.size_pos_iff.2 (by simpa using hne)
      cases h
      exact ⟨[], [], by simp, rfl, rfl, hacc, .ended hpos⟩
  | cons item items ih =>
    cases item with
    | error e' =>
      cases h
      exact ⟨[], _, by simp, rfl, rfl, hacc, .reported e⟩
    | ok word =>
      rw [collect] at h
      split at h
      next hcheck =>
        cases h
        obtain ⟨hword, rfl⟩ := check_eq_error.1 hcheck
        exact ⟨[], _, by simp, rfl, rfl, hacc, .outside hword⟩
      next hcheck =>
        have hword : word < v.bound := check_eq_ok.1 hcheck
        split at h
        next hfull =>
          cases h
          exact ⟨[], _, by simp, rfl, rfl, hacc, .tooLong hword hfull⟩
        next hroom =>
          split at h
          next => cases h
          next hne =>
            -- the word belongs to the beginning, and the fault is further back
            have hle : acc.size ≤ capacity := by simpa using hacc.length_le
            have hpush : IsBeginning v capacity (acc.push word).toList := by
              rw [Array.toList_push]
              exact hacc.append_singleton hword hne (by simpa using by omega)
            obtain ⟨more, tail, rfl, rfl, hrest, hbegins, hbreaks⟩ := ih hpush h
            exact ⟨word :: more, tail, by simp, rfl, hrest, hbegins, hbreaks⟩

/-- **How taking a sentence fails.** The words that were taken are the beginning of one, it breaks
off behind them, and nothing is taken from the stream behind the item that is at fault. -/
theorem collect_error_iff {words : Array Word} {items rest : List Item} {e : Error} :
    collect v capacity #[] items = (.error e, words, rest) ↔
      ∃ tail, items = words.toList.map .ok ++ tail ∧ rest = tail.tail ∧
        IsBeginning v capacity words.toList ∧ Breaks v capacity words.size tail.head? e := by
  constructor
  · intro h
    obtain ⟨more, tail, rfl, hitems, hrest, hbegins, hbreaks⟩ :=
      collect_error_cases (IsBeginning.nil v capacity) h
    exact ⟨tail, by simpa using hitems, hrest, hbegins, hbreaks⟩
  · intro h
    obtain ⟨tail, rfl, rfl, hbegins, hbreaks⟩ := h
    rw [collect_front hbegins.inside hbegins.endless (by simpa using hbegins.length_le)]
    simp only [Array.empty_append, Array.toArray_toList]
    match tail with
    | [] =>
      cases hbreaks with
      | ended hpos =>
        rw [collect, if_neg (by simpa using Array.size_pos_iff.1 hpos)]
        rfl
    | .error e' :: tail =>
      cases hbreaks with
      | reported => rfl
    | .ok word :: tail =>
      rw [collect]
      cases hbreaks with
      | outside hword =>
        rw [check_eq_error.2 ⟨hword, rfl⟩]
        rfl
      | tooLong hword hfull =>
        rw [check_eq_ok.2 hword]
        dsimp only
        rw [if_pos hfull]
        rfl

end Slot

namespace Vocabulary

variable {v : Vocabulary} {capacity : Nat}

/-- **A stream has a fault exactly if one stands behind sentences of it.** It is the error of taking
the sentences off the stream. -/
theorem sentences_error_iff {items : List Item} {e : Error} :
    v.sentences capacity items = .error e ↔
      ∃ (sentences : List (List Word)) (front : List Word) (rest : List Item),
        items = (sentences.flatten ++ front).map .ok ++ rest ∧
        (∀ s ∈ sentences, IsSentence v capacity s) ∧ IsBeginning v capacity front ∧
        Breaks v capacity front.length rest.head? e := by
  constructor
  · intro h
    generalize hlen : items.length = n
    induction n using Nat.strongRecOn generalizing items with
    | ind n ih =>
      match hcollect : Slot.collect v capacity #[] items with
      | (.error e', words, rest) =>
        rw [sentences_of_error hcollect] at h
        cases h
        obtain ⟨tail, rfl, -, hbegins, hbreaks⟩ := Slot.collect_error_iff.1 hcollect
        exact ⟨[], words.toList, tail, rfl, by simp, hbegins, by simpa using hbreaks⟩
      | (.ok .exhausted, words, rest) =>
        rw [sentences_of_exhausted hcollect] at h
        cases h
      | (.ok .ready, words, rest) =>
        rw [sentences_of_ready hcollect, map_eq_error_iff] at h
        -- the induction goes on behind the sentence, where the stream is shorter
        have hlt : rest.length < n := hlen ▸ Slot.collect_ready hcollect
        obtain ⟨hsentence, hitems⟩ := Slot.collect_ready_iff.1 hcollect
        obtain ⟨sentences, front, tail, hrest, hall, hbegins, hbreaks⟩ := ih _ hlt h rfl
        refine ⟨words.toList :: sentences, front, tail, ?_,
          List.forall_mem_cons.2 ⟨hsentence, hall⟩, hbegins, hbreaks⟩
        rw [hitems, hrest]
        simp
  · intro h
    obtain ⟨sentences, front, rest, rfl, hall, hbegins, hbreaks⟩ := h
    induction sentences with
    | nil =>
      have hcollect : Slot.collect v capacity #[] (front.map .ok ++ rest) =
          (.error e, front.toArray, rest.tail) :=
        Slot.collect_error_iff.2 ⟨rest, rfl, rfl, hbegins, by simpa using hbreaks⟩
      exact sentences_of_error hcollect
    | cons s sentences ih =>
      rw [List.forall_mem_cons] at hall
      rw [List.flatten_cons, List.append_assoc, List.map_append, List.append_assoc,
        sentences_of_ready (Slot.collect_append hall.1), ih hall.2]
      rfl

end Vocabulary

/-- Scoring a stream fails exactly with its first fault. -/
theorem Model.scoreStream_eq_error_iff {m : Model} {capacity : Nat} {items : List Item}
    {e : Error} :
    m.scoreStream capacity items = .error e ↔ FirstFault m.vocabulary capacity items e := by
  unfold scoreStream
  constructor
  · intro h
    split at h
    next e' hfault =>
      cases h
      obtain ⟨sentences, front, rest, rfl, hall, hbegins, hbreaks⟩ :=
        Vocabulary.sentences_error_iff.1 hfault
      exact .behind hall hbegins hbreaks
    next hnone =>
      cases h
      obtain ⟨hitems, -⟩ := Vocabulary.sentences_eq_ok_iff.1 hnone
      rw [hitems]
      exact .empty
    next => cases h
  · intro h
    cases h with
    | empty => rw [Vocabulary.sentences_nil]
    | behind hall hbegins hbreaks =>
      rw [Vocabulary.sentences_error_iff.2 ⟨_, _, _, rfl, hall, hbegins, hbreaks⟩]

namespace Ring

/-- **The stream alone decides how a run ends.** Rings with room for the same sentences, whatever
the numbers of their slots and whatever they did before, end with the same report or the same error.
It is a report exactly if the stream is a concatenation of sentences, at least one, and the first
fault of the stream otherwise. -/
theorem score_decided {m : Model} {settings settings' : PipelineSettings} {ring ring' : Ring}
    (hring : ofSettings m settings = .ok ring) (hring' : ofSettings m settings' = .ok ring')
    (hmax : settings.maxWords = settings'.maxWords) (earlier earlier' : List (List Item))
    (items : List Item) :
    ((ring.after m earlier).score m items).1 = ((ring'.after m earlier').score m items).1 ∧
    ((∃ report, ((ring.after m earlier).score m items).1 = .ok report) ↔
      ∃ sentences : List (List Word), sentences ≠ [] ∧ items = sentences.flatten.map .ok ∧
        ∀ s ∈ sentences, IsSentence m.vocabulary settings.maxWords s) ∧
    ∀ e, ((ring.after m earlier).score m items).1 = .error e ↔
      FirstFault m.vocabulary settings.maxWords items e := by
  rw [score_after hring, score_after hring', hmax]
  refine ⟨rfl, ?_, fun e => Model.scoreStream_eq_error_iff⟩
  constructor
  · intro h
    obtain ⟨report, hreport⟩ := h
    obtain ⟨sentences, hne, hitems, hall, -⟩ := Model.scoreStream_eq_ok_iff.1 hreport
    exact ⟨sentences, hne, hitems, hall⟩
  · intro h
    obtain ⟨sentences, hne, hitems, hall⟩ := h
    exact ⟨_, Model.scoreStream_eq_ok_iff.2 ⟨sentences, hne, hitems, hall, rfl⟩⟩

/-- The second sentence has no end where there is no more room, which is found before the word
behind it that is outside the vocabulary: at once by five slots, and at the first turn that ends a
sentence by one slot, which failed before. -/
theorem score_decided_tooLong :
    ∃ ring ring', ofSettings flatModel { depth := 1, maxWords := 2 } = .ok ring ∧
      ofSettings flatModel { depth := 5, maxWords := 2 } = .ok ring' ∧
      let items := [.ok 0, .ok 2, .ok 1, .ok 0, .ok 2, .ok 9]
      ((ring.after flatModel [[.ok 9]]).score flatModel items).1 = .error (.sentenceTooLong 2) ∧
        ((ring'.after flatModel []).score flatModel items).1 = .error (.sentenceTooLong 2) := by
  have hring : ofSettings flatModel { depth := 1, maxWords := 2 } = .ok _ := rfl
  have hring' : ofSettings flatModel { depth := 5, maxWords := 2 } = .ok _ := rfl
  have hfault : FirstFault flatModel.vocabulary 2 [.ok 0, .ok 2, .ok 1, .ok 0, .ok 2, .ok 9]
      (.sentenceTooLong 2) := by
    have hsentences : ∀ s ∈ [[0, 2]], IsSentence flatModel.vocabulary 2 s :=
      List.forall_mem_singleton.2 ⟨⟨[0], rfl, by decide⟩,
        List.forall_mem_cons.2 ⟨by decide, List.forall_mem_singleton.2 (by decide)⟩, by decide⟩
    have hbegins : IsBeginning flatModel.vocabulary 2 [1, 0] :=
      ⟨List.forall_mem_cons.2 ⟨by decide, List.forall_mem_singleton.2 (by decide)⟩, by decide,
        by decide⟩
    have hbreaks : Breaks flatModel.vocabulary 2 2 (some (.ok 2)) (.sentenceTooLong 2) :=
      .tooLong (by decide) rfl
    exact .behind hsentences hbegins hbreaks
  obtain ⟨hsame, -, hdecided⟩ := score_decided hring hring' rfl [[.ok 9]] []
    [.ok 0, .ok 2, .ok 1, .ok 0, .ok 2, .ok 9]
  have herror := (hdecided _).2 hfault
  exact ⟨_, _, hring, hring', herror, hsame ▸ herror⟩

end Ring

end Ngram
