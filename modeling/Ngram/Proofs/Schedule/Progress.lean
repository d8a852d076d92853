import Ngram.Proofs.Score.Sequence
import Ngram.Schedule.Slot

/-!
# What a slot has left to do

A slot that scores a sentence is somewhere inside the recursion of `Model.sumFrom`: its state and
its sum are those behind the words it has scored, and its walk is on its way to the climb of the
word it is at.

> `Scoring`: scoring the words ahead, from where the slot stands, gives the score of the sentence.
> `Scoring.step`: a step cannot fail, uses up one of the steps left, and keeps to the sentence.
> `start_scoring`: whatever a slot did before, starting a sentence sets it on its way.
> `drain_eq`: drained, a slot has made exactly the steps that were left.
-/

namespace Ngram

/-- The score of a sentence, without the machine. -/
def Model.sentenceScore (m : Model) (sentence : List Word) : Single :=
  m.sumFrom m.beginState .zero sentence

theorem Model.scoreSentence_eq {m : Model} {sentence : List Word}
    (h : ∀ word ∈ sentence, word < m.vocabulary.bound) :
    m.scoreSentence sentence = .ok (m.sentenceScore sentence) :=
  m.scoreFrom_eq m.fits_beginState .zero h

namespace Slot

/-- The words from the one that is being scored on. -/
def ahead (s : Slot) : List Word := s.words.toList.drop s.position

/-- The number of words that a slot still has to score. -/
def wordsLeft (s : Slot) : Nat := if s.live then s.ahead.length else 0

/-- The number of steps that a slot still has to make. -/
def stepsLeft (m : Model) (s : Slot) : Nat :=
  if s.live then m.stepsFrom s.state s.ahead - s.walk.level else 0

/-- A slot behind the word that it was at, with a walk for the next one. -/
def behindWord (m : Model) (word : Word) (walk : Walk) (s : Slot) : Slot :=
  { s with
    walk
    score := s.score + (m.scored s.state word).prob
    state := m.next s.state word
    position := s.position + 1 }

/-- A slot on its way to the score of a sentence. -/
structure Scoring (m : Model) (sentence : List Word) (s : Slot) : Prop where
  live : s.live = true
  inside : ∀ word ∈ s.ahead, word < m.vocabulary.bound
  fits : s.state.length ≤ contextSize
  onWay : ∃ word rest, s.ahead = word :: rest ∧
    Walk.OnWay m.store (m.context s.state) word s.walk
  score : m.sumFrom s.state s.score s.ahead = m.sentenceScore sentence

/-- What a step that came to `p` has done to a slot that was scoring a sentence. -/
structure Stepped (m : Model) (sentence : List Word) (s : Slot) (p : Progress) (s' : Slot) :
    Prop where
  index : s'.index = s.index
  capacity : s'.capacity = s.capacity
  words : s.wordsLeft = s'.wordsLeft + if p = .pending then 0 else 1
  steps : s.stepsLeft m = s'.stepsLeft m + 1
  goesOn : p ≠ .finished → s'.Scoring m sentence
  score : p = .finished → s'.ahead = [] ∧ s'.score = m.sentenceScore sentence

section

variable {m : Model} {sentence : List Word} {s : Slot}

theorem length_context_le (state : State) : (m.context state).length ≤ m.store.order - 1 :=
  List.length_take_le _ _

theorem ahead_eq_cons {word : Word} {rest : List Word} (h : s.ahead = word :: rest) :
    s.words[s.position]? = some word ∧ s.words.toList.drop (s.position + 1) = rest := by
  constructor
  · rw [← Array.getElem?_toList, ← List.head?_drop]
    exact congrArg List.head? h
  · rw [← List.drop_drop]
    exact congrArg (List.drop 1) h

/-- Starting a word sets the walk on its way, whatever it did before. -/
theorem startWord_eq {word : Word} (hfits : s.state.length ≤ contextSize)
    (hword : word < m.vocabulary.bound) :
    ∃ walk, s.startWord m word = .ok { s with walk } ∧ walk.level = 0 ∧
      Walk.OnWay m.store (m.context s.state) word walk := by
  obtain ⟨_, walk, hstart, hlevel, honway, -⟩ :=
    Walk.start_eq s.walk s.state.recent (m.toNat_lt_of_lt_bound hword)
  refine ⟨walk, ?_, hlevel, honway⟩
  unfold startWord
  rw [State.context_eq hfits]
  simp only [hstart]

/-- The end of a word adds its score and leaves its state. -/
theorem settle_eq {word : Word} (hfits : s.state.length ≤ contextSize)
    (h : Walk.Ended m.store (m.context s.state) word (m.climb s.state word) s.walk) :
    s.settle = .ok (s.behindWord m word s.walk) := by
  unfold settle
  rw [State.backoffFrom_eq hfits, h.out]
  simp only [h.score]
  rfl

theorem wordsLeft_of_ahead {rest : List Word} (hlive : s.live = true) (h : s.ahead = rest) :
    s.wordsLeft = rest.length := by
  rw [wordsLeft, if_pos hlive, h]

theorem stepsLeft_of_ahead {rest : List Word} (hlive : s.live = true) (h : s.ahead = rest) :
    s.stepsLeft m = m.stepsFrom s.state rest - s.walk.level := by
  rw [stepsLeft, if_pos hlive, h]

/-- A step inside a word takes its walk one level up. -/
theorem Scoring.stepped_pending {word : Word} {rest : List Word} {w : Walk}
    (h : s.Scoring m sentence) (hahead : s.ahead = word :: rest)
    (hnext : Walk.OnWay m.store (m.context s.state) word w) (hlevel : w.level = s.walk.level + 1)
    (hlt : s.walk.level < (m.climb s.state word).above.length) :
    Stepped m sentence s .pending { s with walk := w } := by
  refine ⟨rfl, rfl, rfl, ?_, ?_, fun hp => by cases hp⟩
  · have hafter : stepsLeft m { s with walk := w } = m.stepsFrom s.state (word :: rest) - w.level :=
      stepsLeft_of_ahead h.live hahead
    rw [stepsLeft_of_ahead h.live hahead, hafter, Model.stepsFrom, hlevel]
    omega
  · intro _
    exact { live := h.live, inside := h.inside, fits := h.fits, score := h.score,
            onWay := ⟨word, rest, hahead, hnext⟩ }

theorem ahead_behindWord {word : Word} {rest : List Word} (w : Walk)
    (hahead : s.ahead = word :: rest) : (s.behindWord m word w).ahead = rest :=
  (ahead_eq_cons hahead).2

/-- The step that ends the last word gives the score of the sentence. -/
theorem Scoring.stepped_finished {word : Word} (w : Walk) (h : s.Scoring m sentence)
    (hahead : s.ahead = [word]) (hlevel : s.walk.level = (m.climb s.state word).above.length) :
    Stepped m sentence s .finished (s.behindWord m word w) := by
  have hafter := ahead_behindWord (m := m) w hahead
  have hscore := h.score
  rw [hahead] at hscore
  refine ⟨rfl, rfl, ?_, ?_, fun hp => absurd rfl hp, fun _ => ⟨hafter, hscore⟩⟩
  · rw [wordsLeft_of_ahead h.live hahead, wordsLeft_of_ahead (s := s.behindWord m word w) h.live
      hafter]
    rfl
  · rw [stepsLeft_of_ahead h.live hahead, stepsLeft_of_ahead (s := s.behindWord m word w) h.live
      hafter, hlevel]
    simp [Model.stepsFrom]

/-- The step that ends another word starts the next one. -/
theorem Scoring.stepped_advanced {word next : Word} {rest : List Word} {w : Walk}
    (h : s.Scoring m sentence) (hahead : s.ahead = word :: next :: rest)
    (hlevel : s.walk.level = (m.climb s.state word).above.length) (hstart : w.level = 0)
    (honway : Walk.OnWay m.store (m.context (m.next s.state word)) next w) :
    Stepped m sentence s .advanced (s.behindWord m word w) := by
  have hafter := ahead_behindWord (m := m) w hahead
  have hscore := h.score
  have hinside := h.inside
  rw [hahead] at hscore hinside
  refine ⟨rfl, rfl, ?_, ?_, ?_, fun hp => by cases hp⟩
  · rw [wordsLeft_of_ahead h.live hahead, wordsLeft_of_ahead (s := s.behindWord m word w) h.live
      hafter]
    rfl
  · have hsteps : stepsLeft m (s.behindWord m word w) =
        m.stepsFrom (m.next s.state word) (next :: rest) - w.level :=
      stepsLeft_of_ahead h.live hafter
    rw [stepsLeft_of_ahead h.live hahead, hsteps, hstart, hlevel, Model.stepsFrom]
    omega
  · intro _
    exact { live := h.live
            inside := by rw [hafter]; exact (List.forall_mem_cons.1 hinside).2
            fits := m.fits_next _ _
            onWay := ⟨next, rest, hafter, honway⟩
            score := by rw [hafter]; exact hscore }

/-- A step cannot fail, uses up one of the steps left, and keeps to the sentence. -/
theorem Scoring.step (h : s.Scoring m sentence) :
    ∃ p s', s.step m = .ok (p, s') ∧ Stepped m sentence s p s' := by
  obtain ⟨word, rest, hahead, honway⟩ := h.onWay
  have hinside := h.inside
  rw [hahead] at hinside
  -- the walk goes up inside the word, or ends it
  rcases honway.step (length_context_le _) with ⟨w, hstep, hnext, hlevel, hlt⟩ |
    ⟨w, hstep, hended, hlevel⟩
  · refine ⟨.pending, { s with walk := w }, ?_, h.stepped_pending hahead hnext hlevel hlt⟩
    simp only [Slot.step, hstep]
  · have hsettle := settle_eq (s := { s with walk := w }) h.fits hended
    -- the slot looks for the next word behind the one that ended
    have hget : (behindWord m word w { s with walk := w }).words[(behindWord m word w
        { s with walk := w }).position]? = rest.head? := by
      rw [← (ahead_eq_cons hahead).2, List.head?_drop, Array.getElem?_toList]
      rfl
    simp only [Slot.step, hstep, hsettle, hget]
    cases rest with
    | nil => exact ⟨.finished, _, rfl, h.stepped_finished w hahead hlevel⟩
    | cons next rest =>
      rw [List.forall_mem_cons, List.forall_mem_cons] at hinside
      obtain ⟨w', hstart, hlevel', honway'⟩ :=
        startWord_eq (s := behindWord m word w { s with walk := w }) (m.fits_next _ _) hinside.2.1
      simp only [List.head?_cons, hstart]
      exact ⟨.advanced, _, rfl, h.stepped_advanced hahead hlevel hlevel' honway'⟩

/-- A step that finishes a sentence was the last one, at the last word. -/
theorem Stepped.left_of_finished {s' : Slot} (h : Stepped m sentence s .finished s') :
    s.wordsLeft = 1 ∧ s.stepsLeft m = 1 := by
  obtain ⟨hahead, -⟩ := h.score rfl
  have hwords : s'.wordsLeft = 0 := by simp [wordsLeft, hahead]
  have hsteps : s'.stepsLeft m = 0 := by simp [stepsLeft, hahead, Model.stepsFrom]
  rw [h.words, h.steps, hwords, hsteps]
  exact ⟨rfl, rfl⟩

/-- Whatever a slot did before, starting a sentence sets it on its way. -/
theorem start_scoring (index : Nat) (hwords : s.words.toList = sentence) (hne : sentence ≠ [])
    (hinside : ∀ word ∈ sentence, word < m.vocabulary.bound) :
    ∃ s', s.start m index = .ok s' ∧ s'.Scoring m sentence ∧ s'.index = index ∧
      s'.capacity = s.capacity ∧ s'.wordsLeft = sentence.length ∧
      s'.stepsLeft m = m.stepsFrom m.beginState sentence := by
  obtain ⟨word, rest, rfl⟩ := List.exists_cons_of_ne_nil hne
  have hget : s.words[0]? = some word := by
    rw [← Array.getElem?_toList, hwords]
    rfl
  have hlive : (!s.words.isEmpty) = true := by
    rw [← Array.isEmpty_toList, hwords]
    rfl
  obtain ⟨w, hstart, hlevel, honway⟩ := startWord_eq (s := { s with
    index, position := 0, state := m.beginState, score := .zero, live := !s.words.isEmpty })
    m.fits_beginState (hinside word List.mem_cons_self)
  simp only [start, hget, hstart]
  refine ⟨_, rfl, ?_, rfl, rfl, ?_, ?_⟩
  · exact { live := hlive
            inside := by rw [ahead, List.drop_zero, hwords]; exact hinside
            fits := m.fits_beginState
            onWay := ⟨word, rest, hwords, honway⟩
            score := by rw [ahead, List.drop_zero, hwords]; rfl }
  · rw [wordsLeft, if_pos hlive, ahead, List.drop_zero, hwords]
  · rw [stepsLeft, if_pos hlive, ahead, List.drop_zero, hwords, hlevel, Nat.sub_zero]

/-- Draining goes on behind a step that did not finish the sentence. -/
theorem drain_of_goesOn {p : Progress} {s' : Slot} (h : s.step m = .ok (p, s'))
    (hp : p ≠ .finished) (words steps : Nat) :
    s.drain m words steps =
      s'.drain m (words + if p = .pending then 0 else 1) (steps + 1) := by
  conv_lhs => rw [drain]
  split
  next h' => rw [h] at h'; cases h'
  next h' => rw [h] at h'; cases h'; rfl
  next h' => rw [h] at h'; cases h'; rfl
  next h' => rw [h] at h'; cases h'; exact absurd rfl hp

theorem drain_of_finished {s' : Slot} (h : s.step m = .ok (.finished, s')) (words steps : Nat) :
    s.drain m words steps = .ok (s', words + 1, steps + 1) := by
  rw [drain]
  split
  next h' => rw [h] at h'; cases h'
  next h' => rw [h] at h'; cases h'
  next h' => rw [h] at h'; cases h'
  next h' => rw [h] at h'; cases h'; rfl

/-- Drained, a slot has made exactly the steps that were left, and has the score of its sentence.
The induction is on these steps. -/
theorem Scoring.drain_eq (h : s.Scoring m sentence) (words steps : Nat) :
    ∃ s', s.drain m words steps = .ok (s', words + s.wordsLeft, steps + s.stepsLeft m) ∧
      s'.index = s.index ∧ s'.capacity = s.capacity ∧ s'.score = m.sentenceScore sentence := by
  generalize hleft : s.stepsLeft m = left
  induction left generalizing s words steps with
  | zero =>
    -- on its way, a slot has a step left
    obtain ⟨p, s', -, hstepped⟩ := h.step
    have := hstepped.steps
    omega
  | succ left ih =>
    obtain ⟨p, s', hstep, hstepped⟩ := h.step
    by_cases hp : p = .finished
    · subst hp
      obtain ⟨hwords, hsteps⟩ := hstepped.left_of_finished
      refine ⟨s', ?_, hstepped.index, hstepped.capacity, (hstepped.score rfl).2⟩
      rw [drain_of_finished hstep, hwords, ← hleft, hsteps]
    · have hleft' : s'.stepsLeft m = left := by
        have := hstepped.steps
        omega
      obtain ⟨s'', hdrain, hindex, hcapacity, hscore⟩ := ih (hstepped.goesOn hp)
        (words + if p = .pending then 0 else 1) (steps + 1) hleft'
      refine ⟨s'', ?_, hindex.trans hstepped.index, hcapacity.trans hstepped.capacity, hscore⟩
      rw [drain_of_goesOn hstep hp, hdrain, hstepped.words]
      simp only [Except.ok.injEq, Prod.mk.injEq, true_and]
      omega

end

end Slot

end Ngram
