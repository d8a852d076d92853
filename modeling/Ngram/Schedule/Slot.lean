import Ngram.Model.Basic

/-!
# Sentence slots

A slot holds one sentence and the walk of the word that is being scored. It is fed a sentence from a
stream of items, begun, and stepped until its last word is scored; then it can be fed again. A step
advances the walk by one order and, at the end of a word, adds the word's score to the sentence and
starts the next word from the state that this one left.

`work` bounds the steps that a slot still has to make: `step_work` says that each one uses some of
it up, until the sentence is finished.
-/

namespace Ngram

/-- An element of a stream of words: a word, or the error of whoever reads the stream. -/
abbrev Item := Except Error Word

/-- What feeding a slot has come to. -/
inductive Feed where
  /-- A whole sentence is there. -/
  | ready
  /-- The stream had ended before the sentence began. -/
  | exhausted
deriving DecidableEq, Inhabited

/-- What a step has come to. -/
inductive Progress where
  /-- The word still has a search in flight. -/
  | pending
  /-- A word was scored and the next one started. -/
  | advanced
  /-- The last word was scored. -/
  | finished
deriving DecidableEq, Inhabited

/-- A sentence on its way to its score. -/
structure Slot where
  walk : Walk := .idle
  words : Array Word := #[]
  capacity : Nat
  /-- The number of the sentence. -/
  index : Nat := 0
  /-- The position of the word that is being scored. -/
  position : Nat := 0
  state : State
  score : Single := .zero
  live : Bool := false
deriving DecidableEq

namespace Slot

/-- A slot that was never fed. -/
def idle (m : Model) (capacity : Nat) : Slot := { capacity, state := m.beginState }

/-- Collects the words of a sentence up to its end. An error of the stream comes first, then a word
outside the vocabulary, then a sentence that is too long. -/
def collect (v : Vocabulary) (capacity : Nat) (words : Array Word) :
    List Item → Except Error Feed × Array Word × List Item
  | [] =>
    if words.isEmpty then (.ok .exhausted, words, [])
    else (.error (.input (.endsInside words.size)), words, [])
  | .error e :: items => (.error e, words, items)
  | .ok word :: items =>
    match v.check word with
    | .error e => (.error e, words, items)
    | .ok () =>
      if words.size = capacity then (.error (.sentenceTooLong capacity), words, items)
      else if word = v.endSentence then (.ok .ready, words.push word, items)
      else collect v capacity (words.push word) items

/-- Takes the next sentence from a stream. What the slot held before is dropped, also when the
stream fails. -/
def feed (m : Model) (s : Slot) (items : List Item) : Except Error Feed × Slot × List Item :=
  let (result, words, items) := collect m.vocabulary s.capacity #[] items
  (result, { s with words, live := false }, items)

/-- Starts the word at the slot's position. -/
def startWord (m : Model) (s : Slot) (word : Word) : Except Error Slot :=
  match s.state.context with
  | .error e => .error e
  | .ok context =>
    match s.walk.start m.store context word with
    | .ok (_, walk) => .ok { s with walk }
    | .error e => .error e

/-- Starts to score the words that are there as sentence number `index`. -/
def start (m : Model) (s : Slot) (index : Nat) : Except Error Slot :=
  let s := { s with
    index, position := 0, state := m.beginState, score := .zero, live := !s.words.isEmpty }
  match s.words[0]? with
  | some word => s.startWord m word
  | none => .ok s

/-- Adds the score of the word whose walk has ended, and moves on to the next word. -/
def settle (s : Slot) : Except Error Slot :=
  match s.state.backoffFrom s.walk.score.matched with
  | .ok owed => .ok { s with
      score := s.score + (s.walk.score.prob + owed)
      state := s.walk.out
      position := s.position + 1 }
  | .error e => .error e

/-- Advances the walk of the current word by one order. -/
def step (m : Model) (s : Slot) : Except Error (Progress × Slot) :=
  match s.walk.step m.store with
  | .error e => .error e
  | .ok (.waiting, walk) => .ok (.pending, { s with walk })
  | .ok (.done, walk) =>
    match settle { s with walk } with
    | .error e => .error e
    | .ok s =>
      match s.words[s.position]? with
      | none => .ok (.finished, s)
      | some word =>
        match s.startWord m word with
        | .ok s => .ok (.advanced, s)
        | .error e => .error e

/-- Marks a slot as idle once its score has been collected. -/
def retire (s : Slot) : Slot := { s with live := false }

/-- The number of steps that a word can take at most. -/
def wordWork (m : Model) : Nat := m.store.middle.size + 1

/-- A bound on the steps left in the current word. -/
def walkWork (m : Model) (w : Walk) : Nat := if w.finished then 0 else wordWork m - w.level

/-- A bound on the steps left in the slot's sentence. -/
def work (m : Model) (s : Slot) : Nat :=
  (s.words.size - s.position) * (wordWork m + 1) + walkWork m s.walk

theorem collect_ready {v : Vocabulary} {capacity : Nat} {words words' : Array Word}
    {items rest : List Item} (h : collect v capacity words items = (.ok .ready, words', rest)) :
    rest.length < items.length := by
  induction items generalizing words with
  | nil =>
    rw [collect] at h
    split at h <;> cases h
  | cons item items ih =>
    cases item with
    | error e => cases h
    | ok word =>
      rw [collect] at h
      split at h
      next => cases h
      next =>
        split at h
        next => cases h
        next =>
          split at h
          next => cases h; exact Nat.lt_succ_self _
          next => exact Nat.lt_succ_of_lt (ih h)

theorem feed_ready {m : Model} {s s' : Slot} {items rest : List Item}
    (h : s.feed m items = (.ok .ready, s', rest)) : rest.length < items.length := by
  simp only [feed, Prod.mk.injEq] at h
  have hc : collect m.vocabulary s.capacity #[] items =
      (.ok .ready, (collect m.vocabulary s.capacity #[] items).2.1, rest) := by
    rw [← h.1, ← h.2.2]
  exact collect_ready hc

/-- Starting a word changes the walk only. -/
theorem startWord_frame {m : Model} {s s' : Slot} {word : Word}
    (h : s.startWord m word = .ok s') : ∃ walk, s' = { s with walk } := by
  unfold startWord at h
  split at h
  next => cases h
  next =>
    split at h
    next => cases h; exact ⟨_, rfl⟩
    next => cases h

/-- Starting a sentence leaves its words and the capacity, and makes the slot busy if there are any
words. -/
theorem start_frame {m : Model} {s s' : Slot} {index : Nat} (h : s.start m index = .ok s') :
    ∃ walk, s' = { s with
      walk, index, position := 0, state := m.beginState, score := .zero, live := !s.words.isEmpty
    } := by
  unfold start at h
  dsimp only at h
  split at h
  next => exact startWord_frame h
  next => cases h; exact ⟨_, rfl⟩

/-- Settling a word changes the score and the state, and moves on by one word. -/
theorem settle_frame {s s' : Slot} (h : s.settle = .ok s') :
    ∃ score state, s' = { s with score, state, position := s.position + 1 } := by
  unfold settle at h
  split at h
  next => cases h; exact ⟨_, _, rfl⟩
  next => cases h

/-- A step changes the walk, the score and the state, and moves on by one word if it scores one. -/
theorem step_frame {m : Model} {s s' : Slot} {p : Progress} (h : s.step m = .ok (p, s')) :
    ∃ walk score state, s' = { s with
      walk, score, state, position := if p = .pending then s.position else s.position + 1 } := by
  unfold step at h
  split at h
  next => cases h
  next => cases h; exact ⟨_, _, _, rfl⟩
  next =>
    split at h
    next => cases h
    next hsettle =>
      obtain ⟨score, state, rfl⟩ := settle_frame hsettle
      split at h
      next => cases h; exact ⟨_, _, _, rfl⟩
      next =>
        split at h
        next hstart =>
          obtain ⟨walk, rfl⟩ := startWord_frame hstart
          cases h
          exact ⟨_, _, _, rfl⟩
        next => cases h

theorem walkWork_le (m : Model) (w : Walk) : walkWork m w ≤ wordWork m := by
  unfold walkWork
  split
  next => exact Nat.zero_le _
  next => exact Nat.sub_le _ _

/-- A step either finishes the sentence or uses some of its work up. -/
theorem step_work {m : Model} {s s' : Slot} {p : Progress} (h : s.step m = .ok (p, s'))
    (hp : p ≠ .finished) : s'.work m < s.work m := by
  unfold step at h
  split at h
  next => cases h
  next walk hw =>
    cases h
    obtain ⟨hl, hl', hf, hf'⟩ := Walk.step_waiting hw
    simp only [work, walkWork, hf, hf', hl', wordWork]
    simp only [Bool.false_eq_true, ↓reduceIte]
    omega
  next walk hw =>
    split at h
    next => cases h
    next s₁ hs =>
      split at h
      next => cases h; exact absurd rfl hp
      next word hword =>
        split at h
        next s₂ hs₂ =>
          cases h
          obtain ⟨score, state, rfl⟩ := settle_frame hs
          obtain ⟨walk, rfl⟩ := startWord_frame hs₂
          have hlt : s.position + 1 < s.words.size := (Array.getElem?_eq_some_iff.1 hword).1
          have hwalk := walkWork_le m walk
          simp only [work]
          have hsplit : s.words.size - s.position = s.words.size - (s.position + 1) + 1 := by
            omega
          rw [hsplit, Nat.add_mul]
          omega
        next => cases h

/-- Steps a slot until its sentence is finished, and counts its words and steps on. -/
def drain (m : Model) (s : Slot) (words steps : Nat) : Except Error (Slot × Nat × Nat) :=
  match _h : s.step m with
  | .error e => .error e
  | .ok (.pending, s) => s.drain m words (steps + 1)
  | .ok (.advanced, s) => s.drain m (words + 1) (steps + 1)
  | .ok (.finished, s) => .ok (s, words + 1, steps + 1)
termination_by s.work m
decreasing_by
  · exact step_work _h (by decide)
  · exact step_work _h (by decide)

end Slot

end Ngram
