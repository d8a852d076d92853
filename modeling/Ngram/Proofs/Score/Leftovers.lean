import Ngram.Proofs.Score.Safety

/-!
# What earlier words leave behind is never read

A walk that is started again writes its context over the front of the old one, and ends with context
words that it copies into the next state; a state counts some of its places and keeps whatever stood
in the others. So words of an earlier, longer context stand right behind those that matter. Cleared
of them, a walk takes the same steps: each place that a step reads is in front of them.

> `cleared_step`: clearing a walk before a step or after it comes to the same.
> `cleared_start`: two walks that are started on the same word are the same once they are cleared.
> `cleared_run`, `cleared_scoreWord`: so are they at their ends.
> `fullScore_eq_of_agree`: states that agree in the places that count are scored alike.
> `leftovers_unread`: all of this together.
-/

namespace Ngram

namespace Walk

variable {s : Store} {w w' : Walk} {context context' : List Word} {word : Word}

/-- A walk without what earlier words have left behind the context of this one. -/
def cleared (w : Walk) : Walk :=
  { w with context := overwrite (Vector.replicate _ 0) (w.context.toList.take w.contextLength) }

/-- The same of a walk that a call comes back with. -/
def clearedOutcome (outcome : Except Error (Step × Walk)) : Except Error (Step × Walk) :=
  outcome.map fun r => (r.1, r.2.cleared)

theorem getElem?_cleared {i : Nat} (hi : i < w.contextLength) :
    w.cleared.context[i]? = w.context[i]? := by
  rcases Nat.lt_or_ge i contextSize with hlt | hge
  · rw [Vector.getElem?_eq_getElem hlt, Vector.getElem?_eq_getElem hlt, cleared,
      getElem_overwrite, List.getElem?_take_of_lt hi, Vector.getElem?_toList,
      Vector.getElem?_eq_getElem hlt]
    rfl
  · rw [Vector.getElem?_eq_none hge, Vector.getElem?_eq_none hge]

/-! ## One step -/

/-- The next context word is in front of what is left over. -/
theorem cleared_issue (h : w.taken < w.contextLength) :
    w.cleared.issue s = (w.issue s).map cleared := by
  have hword : w.cleared.context[w.cleared.taken]? = w.context[w.taken]? := getElem?_cleared h
  unfold issue
  rw [hword]
  cases w.context[w.taken]? with
  | none => rfl
  | some word =>
    have hlocate : s.locate w.cleared.level w.cleared.node word = s.locate w.level w.node word :=
      rfl
    dsimp only
    rw [hlocate]
    cases s.locate w.level w.node word with
    | error e => rfl
    | ok r => rfl

theorem lookLongest_keeps (h : w.lookLongest s = .ok w') :
    w'.out = w.out ∧ w'.contextLength = w.contextLength := by
  unfold lookLongest at h
  split at h
  next word _ =>
    cases h
    cases s.longestProb w.node word with
    | none => exact ⟨rfl, rfl⟩
    | some p => exact ⟨rfl, rfl⟩
  next => cases h

theorem advance_taken {hit : Hit} (h : w.advance hit = .ok w') :
    w'.taken = w.taken + 1 ∧ w'.contextLength = w.contextLength := by
  unfold advance at h
  dsimp only at h
  split at h
  next =>
    cases h
    exact ⟨rfl, rfl⟩
  next => cases h

theorem cleared_prepare (h : w.taken ≤ w.contextLength) :
    w.cleared.prepare s = (w.prepare s).map cleared := by
  unfold prepare
  show (if w.taken ≠ w.contextLength ∧ w.level + 2 ≠ s.order then _ else _) = _
  by_cases hmore : w.taken ≠ w.contextLength ∧ w.level + 2 ≠ s.order
  · rw [if_pos hmore, if_pos hmore]
    exact cleared_issue (Nat.lt_of_le_of_ne h hmore.1)
  · rw [if_neg hmore, if_neg hmore]
    rfl

theorem cleared_lookLongest (h : w.taken < w.contextLength) :
    w.cleared.lookLongest s = (w.lookLongest s).map cleared := by
  have hword : w.cleared.context[w.cleared.taken]? = w.context[w.taken]? := getElem?_cleared h
  unfold lookLongest
  rw [hword]
  cases w.context[w.taken]? with
  | none => rfl
  | some word =>
    show Except.ok (w.cleared.takeLongest s.order (s.longestProb w.node word)) =
      Except.ok (w.takeLongest s.order (s.longestProb w.node word)).cleared
    cases s.longestProb w.node word with
    | none => rfl
    | some p => rfl

/-- Moving on to a hit reads no context at all. -/
theorem cleared_advance (w : Walk) (hit : Hit) :
    w.cleared.advance hit = (w.advance hit).map cleared := by
  unfold advance
  dsimp only
  show (if h : w.level + 2 - 1 < contextSize then _ else _) = _
  by_cases hroom : w.level + 2 - 1 < contextSize
  · rw [dif_pos hroom, dif_pos hroom]
    rfl
  · rw [dif_neg hroom, dif_neg hroom]
    rfl

/-- The words that the next state keeps are in front of what is left over. -/
theorem cleared_finish (h : w.out.length ≤ w.contextLength + 1) :
    w.cleared.finish = w.finish.map cleared := by
  have hwords : (Vector.ofFn fun i : Fin contextSize =>
        if i.val - 1 < w.out.length - 1 ∧ 0 < i.val then w.cleared.context[i.val - 1]
        else w.out.words[i]) =
      Vector.ofFn fun i : Fin contextSize =>
        if i.val - 1 < w.out.length - 1 ∧ 0 < i.val then w.context[i.val - 1]
        else w.out.words[i] := by
    congr 1
    funext i
    split
    next hkeep =>
      -- one of the words that are kept is the word itself, so the context has enough of them
      have hread := getElem?_cleared (w := w) (i := i.val - 1) (by omega)
      rw [Vector.getElem?_eq_getElem (by omega), Vector.getElem?_eq_getElem (by omega)] at hread
      exact Option.some.inj hread
    next => rfl
  have hlength : w.cleared.out.length = w.out.length := rfl
  unfold finish
  dsimp only
  rw [hlength]
  by_cases hroom : w.out.length - 1 < contextSize
  · rw [if_pos hroom, if_pos hroom]
    exact congrArg (fun words => Except.ok
      { w.cleared with out := { w.out with words }, finished := true }) hwords
  · rw [if_neg hroom, if_neg hroom]
    rfl

theorem cleared_finishStep (h : w.out.length ≤ w.contextLength + 1) :
    w.cleared.finishStep = clearedOutcome w.finishStep := by
  unfold finishStep
  rw [cleared_finish h]
  cases w.finish with
  | error e => rfl
  | ok w' => rfl

/-- **A step does not read what is left over**: with it cleared before, the step comes back with the
same walk, cleared. -/
theorem cleared_step (h : w.InRange s) : w.cleared.step s = clearedOutcome (w.step s) := by
  have htaken := h.taken_le
  have hout : w.out.length ≤ w.contextLength + 1 := by
    have hlength := h.length_le
    have hlevel := h.level_eq
    omega
  unfold step
  show (if w.finished then _ else if w.taken = w.contextLength ∨ w.score.independentLeft then _
    else if w.level + 2 = s.order then _ else _) = _
  by_cases hfinished : w.finished = true
  · rw [if_pos hfinished, if_pos hfinished]
    rfl
  rw [if_neg hfinished, if_neg hfinished]
  by_cases hend : w.taken = w.contextLength ∨ w.score.independentLeft = true
  · rw [if_pos hend, if_pos hend]
    exact cleared_finishStep hout
  rw [if_neg hend, if_neg hend]
  have hmore : w.taken < w.contextLength :=
    Nat.lt_of_le_of_ne htaken fun h => hend (Or.inl h)
  by_cases htop : w.level + 2 = s.order
  · rw [if_pos htop, if_pos htop, cleared_lookLongest hmore]
    cases hlook : w.lookLongest s with
    | error e => rfl
    | ok w₁ =>
      have hkeeps : w₁.out = w.out ∧ w₁.contextLength = w.contextLength := lookLongest_keeps hlook
      exact cleared_finishStep (by rw [hkeeps.1, hkeeps.2]; exact hout)
  · rw [if_neg htop, if_neg htop]
    have hcomplete : s.complete w.cleared.level w.cleared.node w.cleared.cursor =
        s.complete w.level w.node w.cursor := rfl
    rw [hcomplete]
    cases s.complete w.level w.node w.cursor with
    | error e => rfl
    | ok found =>
      cases found with
      | none =>
        let ended : Walk := { w with score := { w.score with independentLeft := true } }
        have hended : ended.out.length ≤ ended.contextLength + 1 := hout
        exact cleared_finishStep hended
      | some hit =>
        dsimp only
        rw [cleared_advance]
        cases hadvance : w.advance hit with
        | error e => rfl
        | ok w₁ =>
          -- there was a word to take, so with it the walk has not passed the end of the context
          have hkeeps := advance_taken hadvance
          have hmap : (Except.ok w₁ : Except Error Walk).map cleared = .ok w₁.cleared := rfl
          rw [hmap]
          dsimp only
          rw [cleared_prepare (by omega)]
          cases w₁.prepare s with
          | error e => rfl
          | ok w₂ => rfl

/-! ## One word, from its start to its end -/

/-- What is left of a start when the walk has been set back. -/
def launch (s : Store) (w : Walk) : Except Error (Step × Walk) :=
  if w.contextLength = 0 then w.finishStep
  else if 2 < s.order then
    match w.issue s with
    | .ok w => .ok (.waiting, w)
    | .error e => .error e
  else .ok (.waiting, w)

theorem start_eq_launch (s : Store) (w : Walk) (context : List Word) (word : Word) :
    w.start s context word =
      if (context.take (s.order - 1)).length ≤ contextSize then
        match s.unigram word with
        | .error e => .error e
        | .ok hit => (w.restart s.order (context.take (s.order - 1)) word hit).launch s
      else .error .outOfRange :=
  rfl

theorem cleared_launch (htaken : w.taken = 0) (hout : w.out.length ≤ 1) :
    w.cleared.launch s = clearedOutcome (w.launch s) := by
  unfold launch
  show (if w.contextLength = 0 then _ else _) = _
  by_cases hempty : w.contextLength = 0
  · rw [if_pos hempty, if_pos hempty]
    exact cleared_finishStep (by omega)
  rw [if_neg hempty, if_neg hempty]
  by_cases hmiddle : 2 < s.order
  · rw [if_pos hmiddle, if_pos hmiddle, cleared_issue (by omega)]
    cases w.issue s with
    | error e => rfl
    | ok w' => rfl
  · rw [if_neg hmiddle, if_neg hmiddle]
    rfl

theorem length_unigramState_le (order : Nat) (word : Word) (hit : Hit) :
    (unigramState order word hit).length ≤ 1 := by
  unfold unigramState
  split
  next =>
    dsimp only
    split
    next => exact Nat.le_refl _
    next => exact Nat.zero_le _
  next => exact Nat.zero_le _

/-- Set back to the same word, any two walks hold the same in front of what is left over. -/
theorem cleared_restart (order : Nat) (w w' : Walk) (word : Word) (hit : Hit)
    (hfits : context.length ≤ contextSize) :
    (w.restart order context word hit).cleared = (w'.restart order context word hit).cleared := by
  have hfront (w : Walk) : (overwrite w.context context).toList.take context.length = context := by
    rw [take_overwrite _ _ (Nat.le_refl _) hfits, List.take_length]
  unfold cleared restart
  dsimp only
  rw [hfront, hfront]

/-- **A start leaves nothing of an earlier word behind that could be read**, and reads no more of a
context than the order allows. -/
theorem cleared_start (w w' : Walk) (word : Word)
    (hcontext : context.take (s.order - 1) = context'.take (s.order - 1)) :
    clearedOutcome (w.start s context word) = clearedOutcome (w'.start s context' word) := by
  rw [start_eq_launch, start_eq_launch, ← hcontext]
  by_cases hfits : (context.take (s.order - 1)).length ≤ contextSize
  · rw [if_pos hfits, if_pos hfits]
    cases s.unigram word with
    | error e => rfl
    | ok hit =>
      have hlaunch (w : Walk) :
          clearedOutcome ((w.restart s.order (context.take (s.order - 1)) word hit).launch s) =
            (w.restart s.order (context.take (s.order - 1)) word hit).cleared.launch s :=
        (cleared_launch rfl (length_unigramState_le _ _ _)).symm
      dsimp only
      rw [hlaunch, hlaunch, cleared_restart s.order w w' word hit hfits]
  · rw [if_neg hfits, if_neg hfits]

/-- Nor does the rest of the scoring of a word, by induction over its steps. -/
theorem cleared_run (h : Meets s context word w) (hword : word.toNat < s.unigrams.size) :
    w.cleared.run s = (w.run s).map cleared := by
  induction w using Walk.run.induct s with
  | case1 w e herror =>
    obtain ⟨-, step, w', hstep⟩ := h.inRange hword
    rw [hstep] at herror
    cases herror
  | case2 w w' hdone =>
    have hcleared : w.cleared.step s = .ok (.done, w'.cleared) := by
      rw [cleared_step (h.inRange hword).1, hdone]
      rfl
    rw [run_of_done hdone, run_of_done hcleared]
    rfl
  | case3 w w' hwaiting ih =>
    have hcleared : w.cleared.step s = .ok (.waiting, w'.cleared) := by
      rw [cleared_step (h.inRange hword).1, hwaiting]
      rfl
    rw [run_of_waiting hwaiting, run_of_waiting hcleared]
    exact ih (h.step hwaiting)

/-- **What a walk has scored before does not matter**, nor do the words behind those that the order
allows: but for words that are never read, it ends as another walk does. -/
theorem cleared_scoreWord (w w' : Walk) (hword : word.toNat < s.unigrams.size)
    (hcontext : context.take (s.order - 1) = context'.take (s.order - 1)) :
    (w.scoreWord s context word).map cleared = (w'.scoreWord s context' word).map cleared := by
  have hstart := cleared_start w w' word hcontext
  obtain ⟨step, w₁, hw₁, -⟩ := start_eq w context hword
  obtain ⟨step', w₁', hw₁', -⟩ := start_eq w' context' hword
  rw [hw₁, hw₁'] at hstart
  obtain ⟨rfl, hsame⟩ := Prod.mk.inj (Except.ok.inj hstart)
  unfold scoreWord
  rw [hw₁, hw₁']
  cases step with
  | done => exact congrArg Except.ok hsame
  | waiting =>
    dsimp only
    rw [← cleared_run (.start hw₁) hword, ← cleared_run (.start hw₁') hword, hsame]

end Walk

/-! ## States -/

/-- Two states that agree in the places that count. -/
structure State.Agree (state state' : State) : Prop where
  length : state.length = state'.length
  words : ∀ i < state.length, state.words[i]? = state'.words[i]?
  backoffs : ∀ i < state.length, state.backoffs[i]? = state'.backoffs[i]?

theorem take_toList_eq {n k : Nat} {α : Type} {v v' : Vector α n}
    (h : ∀ i < k, v[i]? = v'[i]?) : v.toList.take k = v'.toList.take k := by
  apply List.ext_getElem?
  intro i
  rcases Nat.lt_or_ge i k with hlt | hge
  · rw [List.getElem?_take_of_lt hlt, List.getElem?_take_of_lt hlt, Vector.getElem?_toList,
      Vector.getElem?_toList, h i hlt]
  · rw [List.getElem?_eq_none (by simp; omega), List.getElem?_eq_none (by simp; omega)]

namespace State.Agree

variable {state state' : State}

theorem context_eq (h : state.Agree state') : state.context = state'.context := by
  unfold State.context
  rw [← h.length, take_toList_eq h.words]

theorem backoffFrom_eq (h : state.Agree state') (matched : Nat) :
    state.backoffFrom matched = state'.backoffFrom matched := by
  unfold State.backoffFrom
  rw [← h.length, take_toList_eq h.backoffs]

end State.Agree

namespace Model

/-- States that agree in the places that count are scored alike, for words that lie outside of the
vocabulary as well. -/
theorem fullScore_eq_of_agree (m : Model) {state state' : State} (h : state.Agree state')
    (word : Word) : m.fullScore state word = m.fullScore state' word := by
  unfold fullScore
  rw [h.context_eq]
  simp only [h.backoffFrom_eq]

/-- **What earlier words leave behind is never read.** Over any store, a walk may have been started
on any contexts before, may have been left before its end, and may hold anything else: it scores a
stored word as a walk that was never started does, behind the same words of context as far as the
order allows, and differs from it at the end in nothing but words of context that are never read.
And in any model, states of the same length with the same words and backoffs up to it give the same
score and the same state for any word, whatever stands behind these. -/
theorem leftovers_unread :
    (∀ (s : Store) (w : Walk) (context context' : List Word) (word : Word), word < s.bound →
      context.take (s.order - 1) = context'.take (s.order - 1) →
      ∃ fresh used, Walk.idle.scoreWord s context word = .ok fresh ∧
        w.scoreWord s context' word = .ok used ∧
        used.cleared = fresh.cleared ∧ used.score = fresh.score ∧ used.out = fresh.out) ∧
    ∀ (m : Model) (state state' : State), state.length ≤ m.store.order - 1 →
      state.Agree state' → ∀ word, m.fullScore state word = m.fullScore state' word ∧
        (word < m.vocabulary.bound →
          ∃ score next, m.fullScore state word = .ok (score, next)) := by
  refine ⟨?_, ?_⟩
  · intro s w context context' word hword hcontext
    have hsize := Store.toNat_lt_of_lt_bound hword
    obtain ⟨fresh, hfresh, -⟩ := Walk.scoreWord_eq .idle context hsize
    obtain ⟨used, hused, -⟩ := Walk.scoreWord_eq w context' hsize
    have hsame := Walk.cleared_scoreWord w .idle hsize hcontext.symm
    rw [hfresh, hused] at hsame
    have hcleared : used.cleared = fresh.cleared := Except.ok.inj hsame
    have hscore : used.cleared.score = fresh.cleared.score := congrArg Walk.score hcleared
    have hout : used.cleared.out = fresh.cleared.out := congrArg Walk.out hcleared
    exact ⟨fresh, used, hfresh, hused, hcleared, hscore, hout⟩
  · intro m state state' hlength hagree word
    refine ⟨m.fullScore_eq_of_agree hagree word, fun hword => ?_⟩
    exact ⟨_, _, fullScore_eq (Nat.le_trans hlength m.order_sub_one_le) hword⟩

/-- A walk that was left behind two words of context still has the second of them when it is started
again behind one word, and two states hold different words and backoffs behind the one word that
counts. -/
theorem leftovers_unread_abandoned :
    let s := misplacedModel.store
    let state : State := { State.empty with words := #v[1, 2, 0, 0, 0], length := 1 }
    let state' : State :=
      { words := #v[1, 5, 5, 5, 5]
        backoffs := #v[.zero, ⟨0x7fc00000⟩, ⟨0x7fc00000⟩, ⟨0x7fc00000⟩, ⟨0x7fc00000⟩], length := 1 }
    ∃ w, Walk.idle.start s [1, 1] 2 = .ok (.waiting, w) ∧ w.context[1]? = some 1 ∧
      (∃ fresh used, Walk.idle.scoreWord s [1] 2 = .ok fresh ∧ w.scoreWord s [1] 2 = .ok used ∧
        used.score = fresh.score ∧ used.out = fresh.out) ∧
      state ≠ state' ∧
      misplacedModel.fullScore state 2 = misplacedModel.fullScore state' 2 := by
  intro s state state'
  refine ⟨_, rfl, rfl, ?_, by decide, ?_⟩
  · obtain ⟨fresh, used, hfresh, hused, -, hscore, hout⟩ :=
      leftovers_unread.1 s _ [1] [1] 2 (by decide) rfl
    exact ⟨fresh, used, hfresh, hused, hscore, hout⟩
  · have hagree : state.Agree state' := ⟨rfl, by decide, by decide⟩
    exact (leftovers_unread.2 misplacedModel state state' (by decide) hagree 2).1

end Model

end Ngram
