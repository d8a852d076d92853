import Ngram.Proofs.Schedule.Progress
import Ngram.Proofs.Schedule.Reuse

/-!
# The ledger of a run

The slots of a ring are in different words of different sentences at any time, and finish and are
fed again at moments that depend on the data. What holds through all of it is `Sound`: every
sentence that was fed is on its way in a slot that is still busy, or has its score written, and the
words and steps that were counted, with those that the slots have left, are those of all sentences
that were fed.

> `Sound.put`: putting another slot into a place keeps the ledger if the books balance.
> `Sound.step`, `Sound.collect`, `Sound.enter`: so do a step, the end of a sentence and its start.
> `Sound.report_eq`: once no slot is busy, the report is that of scoring the sentences one by one.
-/

namespace Ngram

/-- The report of sentences that were scored one after another. -/
def Model.report (m : Model) (sentences : List (List Word)) : Report :=
  { scores := (sentences.map m.sentenceScore).toArray
    words := (sentences.map List.length).sum
    steps := (sentences.map (m.stepsFrom m.beginState)).sum }

namespace Run

/-- A count over the first slots. -/
def total (f : Slot → Nat) (slots : Array Slot) (width : Nat) : Nat :=
  ((slots.toList.take width).map f).sum

/-- The ledger of a run that has fed some sentences into its first `width` slots. -/
structure Sound (m : Model) (capacity : Nat) (fed : List (List Word)) (width : Nat) (run : Run) :
    Prop where
  width_le : width ≤ run.slots.size
  capacity : ∀ s ∈ run.slots, s.capacity = capacity
  size : run.report.scores.size = fed.length
  /-- A busy slot is on its way to the score of the sentence whose number it has. -/
  held : ∀ i < width, ∀ s, run.slots[i]? = some s → s.live = true →
    ∃ sentence, fed[s.index]? = some sentence ∧ s.Scoring m sentence
  /-- A sentence is in a busy slot, or its score is written. -/
  written : ∀ (j : Nat) sentence, fed[j]? = some sentence →
    (∃ i < width, ∃ s, run.slots[i]? = some s ∧ s.live = true ∧ s.index = j) ∨
      run.report.scores[j]? = some (m.sentenceScore sentence)
  words : run.report.words + total Slot.wordsLeft run.slots width = (fed.map List.length).sum
  steps : run.report.steps + total (Slot.stepsLeft m) run.slots width =
    (fed.map (m.stepsFrom m.beginState)).sum

/-- All of the first slots are busy. -/
def Busy (width : Nat) (slots : Array Slot) : Prop :=
  ∀ i < width, ∃ s, slots[i]? = some s ∧ s.live = true

section Put

variable {slots : Array Slot} {f : Slot → Nat} {s s' : Slot} {i j width : Nat}

theorem getElem?_put_self (hs : slots[i]? = some s) : (put slots i s')[i]? = some s' := by
  rw [put, Array.getElem?_setIfInBounds_self_of_lt (Array.getElem?_eq_some_iff.1 hs).1]

theorem getElem?_put_ne (hne : i ≠ j) : (put slots i s')[j]? = slots[j]? :=
  Array.getElem?_setIfInBounds_ne hne

theorem put_put : put (put slots i s) i s' = put slots i s' := by
  simp [put]

theorem size_put : (put slots i s).size = slots.size := Array.size_setIfInBounds

/-- Only the count of the slot that was put changes. -/
theorem total_put (f : Slot → Nat) (s' : Slot) (hi : i < width) (hs : slots[i]? = some s) :
    total f (put slots i s') width + f s = total f slots width + f s' := by
  obtain ⟨hlt, rfl⟩ := Array.getElem?_eq_some_iff.1 hs
  have hlen : i < (slots.toList.take width).length := by
    rw [List.length_take, Array.length_toList]
    omega
  have hsum := sum_map_set f (slots.toList.take width) i s' hlen
  rw [List.getElem_take, Array.getElem_toList] at hsum
  rw [total, total, put, Array.toList_setIfInBounds, List.take_set]
  exact hsum

theorem total_put_outside (hi : width ≤ i) :
    total f (put slots i s') width = total f slots width := by
  rw [total, total, put, Array.toList_setIfInBounds, List.take_set_of_le hi]

theorem total_succ (hs : slots[width]? = some s) :
    total f slots (width + 1) = total f slots width + f s := by
  rw [total, total, List.take_add_one, Array.getElem?_toList, hs]
  simp

theorem Busy.put (h : Busy width slots) (hs' : s'.live = true) : Busy width (put slots i s') := by
  intro j hj
  obtain ⟨s, hs, hlive⟩ := h j hj
  by_cases hij : i = j
  · subst hij
    exact ⟨s', getElem?_put_self hs, hs'⟩
  · exact ⟨s, by rw [getElem?_put_ne hij, hs], hlive⟩

theorem Busy.put_outside (h : Busy width slots) (hi : width ≤ i) :
    Busy width (Run.put slots i s') := by
  intro j hj
  obtain ⟨s, hs, hlive⟩ := h j hj
  exact ⟨s, by rw [getElem?_put_ne (by omega), hs], hlive⟩

theorem Busy.succ (h : Busy width slots) (hs : slots[width]? = some s) (hlive : s.live = true) :
    Busy (width + 1) slots := by
  intro j hj
  rcases Nat.lt_succ_iff_lt_or_eq.1 hj with hlt | rfl
  · exact h j hlt
  · exact ⟨s, hs, hlive⟩

end Put

theorem wordsLeft_of_idle {s : Slot} (h : s.live = false) : s.wordsLeft = 0 := by
  simp [Slot.wordsLeft, h]

theorem stepsLeft_of_idle {m : Model} {s : Slot} (h : s.live = false) : s.stepsLeft m = 0 := by
  simp [Slot.stepsLeft, h]

namespace Sound

variable {m : Model} {capacity width i : Nat} {fed : List (List Word)} {run : Run} {s s' : Slot}
  {sentence : List Word}

/-- Putting another slot into a place keeps the ledger if the books balance: what the slot `s` had
left and what was counted, against what the slot `s'` has left and what is counted now. -/
theorem put {fed' : List (List Word)} {items : List Item} {report : Report}
    (h : Sound m capacity fed width run) (hi : i < width) (hs : run.slots[i]? = some s)
    (hcapacity : s'.capacity = s.capacity) (hsize : report.scores.size = fed'.length)
    (hgrow : ∀ (j : Nat) sentence, fed[j]? = some sentence → fed'[j]? = some sentence)
    (hheld : s'.live = true → ∃ sentence, fed'[s'.index]? = some sentence ∧ s'.Scoring m sentence)
    (hwritten : ∀ (j : Nat) sentence, fed'[j]? = some sentence →
      s'.live = true ∧ s'.index = j ∨ report.scores[j]? = some (m.sentenceScore sentence) ∨
        fed[j]? = some sentence ∧ report.scores[j]? = run.report.scores[j]? ∧
          ¬ (s.live = true ∧ s.index = j))
    (hwords : report.words + s'.wordsLeft + (fed.map List.length).sum =
      run.report.words + s.wordsLeft + (fed'.map List.length).sum)
    (hsteps : report.steps + s'.stepsLeft m + (fed.map (m.stepsFrom m.beginState)).sum =
      run.report.steps + s.stepsLeft m + (fed'.map (m.stepsFrom m.beginState)).sum) :
    Sound m capacity fed' width ⟨Run.put run.slots i s', items, report⟩ := by
  refine ⟨by rw [size_put]; exact h.width_le, ?_, hsize, ?_, ?_, ?_, ?_⟩
  · exact forall_mem_put h.capacity (hcapacity.trans (h.capacity s (Array.mem_of_getElem? hs)))
  · intro j hj t ht hlive
    by_cases hij : i = j
    · subst hij
      rw [getElem?_put_self hs] at ht
      cases ht
      exact hheld hlive
    · rw [getElem?_put_ne hij] at ht
      obtain ⟨sentence, hfed, hscoring⟩ := h.held j hj t ht hlive
      exact ⟨sentence, hgrow _ _ hfed, hscoring⟩
  · intro j sentence hfed'
    -- the sentence is in the slot that was put, or was just recorded, or is where it was before
    rcases hwritten j sentence hfed' with ⟨hlive, hindex⟩ | hscore | ⟨hfed, hsame, hother⟩
    · exact Or.inl ⟨i, hi, s', getElem?_put_self hs, hlive, hindex⟩
    · exact Or.inr hscore
    · rcases h.written j sentence hfed with ⟨k, hk, t, ht, hlive, hindex⟩ | hscore
      · -- the slot that it is in is another one, as slot `i` did not hold it
        have hik : i ≠ k := by
          intro h
          subst h
          rw [hs] at ht
          cases ht
          exact hother ⟨hlive, hindex⟩
        exact Or.inl ⟨k, hk, t, by rw [getElem?_put_ne hik, ht], hlive, hindex⟩
      · exact Or.inr (hsame.trans hscore)
  · have hput := total_put Slot.wordsLeft s' hi hs
    have := h.words
    show report.words + total Slot.wordsLeft (Run.put run.slots i s') width =
      (fed'.map List.length).sum
    omega
  · have hput := total_put (Slot.stepsLeft m) s' hi hs
    have := h.steps
    show report.steps + total (Slot.stepsLeft m) (Run.put run.slots i s') width =
      (fed'.map (m.stepsFrom m.beginState)).sum
    omega

/-- A step inside a sentence. -/
theorem step (h : Sound m capacity fed width run) (hi : i < width) (hs : run.slots[i]? = some s)
    (hfed : fed[s.index]? = some sentence) {p : Progress} (hp : p ≠ .finished)
    (hstepped : Slot.Stepped m sentence s p s') :
    Sound m capacity fed width
      { run with slots := Run.put run.slots i s', report := tally run.report p } := by
  have hscoring := hstepped.goesOn hp
  refine h.put hi hs hstepped.capacity h.size (fun _ _ hj => hj) ?_ ?_ ?_ ?_
  · intro _
    exact ⟨sentence, by rw [hstepped.index, hfed], hscoring⟩
  · intro j other hother
    by_cases hj : s.index = j
    · exact Or.inl ⟨hscoring.live, hstepped.index.trans hj⟩
    · exact Or.inr (Or.inr ⟨hother, rfl, fun h => hj h.2⟩)
  · rw [hstepped.words, tally]
    dsimp only
    split
    next => omega
    next => omega
  · rw [hstepped.steps, tally]
    dsimp only
    omega

/-- The end of a sentence: its score is written, its words and steps are counted, and the slot is
not busy any more. -/
theorem collect {items : List Item} (h : Sound m capacity fed width run) (hi : i < width)
    (hs : run.slots[i]? = some s) (hfed : fed[s.index]? = some sentence)
    (hcapacity : s'.capacity = s.capacity) (hidle : s'.live = false) :
    Sound m capacity fed width ⟨Run.put run.slots i s', items,
      { scores := run.report.scores.setIfInBounds s.index (m.sentenceScore sentence)
        words := run.report.words + s.wordsLeft
        steps := run.report.steps + s.stepsLeft m }⟩ := by
  refine h.put hi hs hcapacity ?_ (fun _ _ hj => hj) ?_ ?_ ?_ ?_
  · rw [Array.size_setIfInBounds, h.size]
  · intro hlive
    rw [hidle] at hlive
    cases hlive
  · intro j other hother
    by_cases hj : s.index = j
    · subst hj
      rw [hfed] at hother
      cases hother
      have hlt : s.index < run.report.scores.size := by
        rw [h.size]
        exact (List.getElem?_eq_some_iff.1 hfed).1
      exact Or.inr (Or.inl (Array.getElem?_setIfInBounds_self_of_lt hlt))
    · exact Or.inr (Or.inr ⟨hother, Array.getElem?_setIfInBounds_ne hj, fun h => hj h.2⟩)
  · rw [wordsLeft_of_idle hidle]
    dsimp only
    omega
  · rw [stepsLeft_of_idle hidle]
    dsimp only
    omega

/-- A sentence that was fed to a slot that was not busy is on its way. -/
theorem enter {items : List Item} (h : Sound m capacity fed width run) (hi : i < width)
    (hs : run.slots[i]? = some s) (hidle : s.live = false) (hcapacity : s'.capacity = s.capacity)
    (hscoring : s'.Scoring m sentence) (hindex : s'.index = fed.length)
    (hwords : s'.wordsLeft = sentence.length)
    (hsteps : s'.stepsLeft m = m.stepsFrom m.beginState sentence) :
    Sound m capacity (fed ++ [sentence]) width ⟨Run.put run.slots i s', items,
      { run.report with scores := run.report.scores.push .zero }⟩ := by
  refine h.put hi hs hcapacity ?_ ?_ ?_ ?_ ?_ ?_
  · rw [Array.size_push, h.size, List.length_append, List.length_singleton]
  · intro j other hj
    rw [List.getElem?_append_left (List.getElem?_eq_some_iff.1 hj).1, hj]
  · intro _
    exact ⟨sentence, by rw [hindex]; simp, hscoring⟩
  · intro j other hother
    -- the sentence with the next number is the new one
    by_cases hj : j = fed.length
    · exact Or.inl ⟨hscoring.live, hindex.trans hj.symm⟩
    · have hlt : j < fed.length := by
        have := (List.getElem?_eq_some_iff.1 hother).1
        simp only [List.length_append, List.length_singleton] at this
        omega
      rw [List.getElem?_append_left hlt] at hother
      refine Or.inr (Or.inr ⟨hother, ?_, fun hs => by rw [hidle] at hs; cases hs.1⟩)
      dsimp only
      rw [Array.getElem?_push, if_neg (by rw [h.size]; exact hj)]
  · rw [wordsLeft_of_idle hidle, hwords, List.map_append, List.sum_append]
    simp only [List.map_cons, List.map_nil, List.sum_singleton]
    omega
  · rw [stepsLeft_of_idle hidle, hsteps, List.map_append, List.sum_append]
    simp only [List.map_cons, List.map_nil, List.sum_singleton]
    omega

/-- What stands behind the first slots does not matter. -/
theorem put_outside (h : Sound m capacity fed width run) (items : List Item) (hi : width ≤ i)
    (hs : run.slots[i]? = some s) (hcapacity : s'.capacity = s.capacity) :
    Sound m capacity fed width { run with slots := Run.put run.slots i s', items } := by
  refine ⟨by rw [size_put]; exact h.width_le, ?_, h.size, ?_, ?_, ?_, ?_⟩
  · exact forall_mem_put h.capacity (hcapacity.trans (h.capacity s (Array.mem_of_getElem? hs)))
  · intro j hj t ht
    rw [getElem?_put_ne (by omega)] at ht
    exact h.held j hj t ht
  · intro j sentence hfed
    rcases h.written j sentence hfed with ⟨k, hk, t, ht, hlive, hindex⟩ | hscore
    · exact Or.inl ⟨k, hk, t, by rw [getElem?_put_ne (by omega), ht], hlive, hindex⟩
    · exact Or.inr hscore
  · rw [total_put_outside hi]
    exact h.words
  · rw [total_put_outside hi]
    exact h.steps

/-- One more slot, which is not busy. -/
theorem widen (h : Sound m capacity fed width run) (hs : run.slots[width]? = some s)
    (hidle : s.live = false) : Sound m capacity fed (width + 1) run := by
  refine ⟨(Array.getElem?_eq_some_iff.1 hs).1, h.capacity, h.size, fun j hj t ht hlive => ?_,
    fun j sentence hfed => ?_, ?_, ?_⟩
  · by_cases hij : width = j
    · subst hij
      rw [hs] at ht
      cases ht
      rw [hidle] at hlive
      cases hlive
    · exact h.held j (by omega) t ht hlive
  · rcases h.written j sentence hfed with ⟨k, hk, hslot⟩ | hscore
    · exact Or.inl ⟨k, by omega, hslot⟩
    · exact Or.inr hscore
  · rw [total_succ hs, wordsLeft_of_idle hidle]
    exact h.words
  · rw [total_succ hs, stepsLeft_of_idle hidle]
    exact h.steps

/-- With no slot busy any more the report is that of the sentences that were fed. -/
theorem report_eq (h : Sound m capacity fed width run)
    (hidle : ∀ i < width, ∀ s, run.slots[i]? = some s → s.live = false) :
    run.report = m.report fed := by
  have hzero : ∀ f : Slot → Nat, (∀ s, s.live = false → f s = 0) →
      total f run.slots width = 0 := by
    intro f hf
    refine List.sum_eq_zero_iff_forall_eq_nat.2 ?_
    intro n hn
    obtain ⟨s, hs, rfl⟩ := List.mem_map.1 hn
    obtain ⟨i, hi⟩ := List.mem_iff_getElem?.1 hs
    rw [List.getElem?_take] at hi
    split at hi
    next hlt => exact hf s (hidle i hlt s (by rw [← Array.getElem?_toList, hi]))
    next => cases hi
  have hwords := h.words
  have hsteps := h.steps
  rw [hzero _ fun _ => wordsLeft_of_idle, Nat.add_zero] at hwords
  rw [hzero _ fun _ => stepsLeft_of_idle, Nat.add_zero] at hsteps
  -- no sentence is in a busy slot, so each one has its score written
  have hscores : run.report.scores = (fed.map m.sentenceScore).toArray := by
    refine Array.ext_getElem? ?_
    intro j
    simp only [List.getElem?_toArray, List.getElem?_map]
    cases hfed : fed[j]? with
    | none =>
      rw [List.getElem?_eq_none_iff] at hfed
      rw [Array.getElem?_eq_none (by rw [h.size]; exact hfed)]
      rfl
    | some sentence =>
      rcases h.written j sentence hfed with ⟨k, hk, t, ht, hlive, -⟩ | hscore
      · rw [hidle k hk t ht] at hlive
        cases hlive
      · rw [hscore]
        rfl
  obtain ⟨slots, items, scores, words, steps⟩ := run
  simp only at hscores hwords hsteps
  rw [hscores, hwords, hsteps]
  rfl

end Sound

end Run

end Ngram
