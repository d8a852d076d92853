import Ngram.Proofs.Score.Climb

/-!
# Scoring word after word

With a state whose length fits its buffers and a word of the vocabulary, scoring cannot fail: it is
the climb for the word, with what the state owes added (`fullScore_eq`), and it leaves a state that
fits again (`length_next_le`). So a list of words is scored by a recursion over states
(`stateAfter_eq`, `scoreFrom_eq`), and `stepsFrom` says how many steps a machine takes for it.
-/

namespace Ngram

namespace State

/-- The words that count, most recent first. -/
def recent (s : State) : List Word := s.words.toList.take s.length

/-- The backoffs that a match of a given length owes, in increasing length. -/
def owing (s : State) (matched : Nat) : List Single :=
  (s.backoffs.toList.take s.length).drop (matched - 1)

/-- What they add up to. -/
def owed (s : State) (matched : Nat) : Single := (s.owing matched).foldl (· + ·) .zero

theorem context_eq {s : State} (h : s.length ≤ contextSize) : s.context = .ok s.recent := if_pos h

theorem backoffFrom_eq {s : State} (h : s.length ≤ contextSize) (matched : Nat) :
    s.backoffFrom matched = .ok (s.owed matched) := by
  unfold backoffFrom
  split
  next => rfl
  next hge =>
    have hnone : s.owing matched = [] := by
      rw [owing, List.drop_eq_nil_iff, List.length_take]
      omega
    rw [owed, hnone]
    rfl

end State

/-- A word below the bound has weights. -/
theorem Store.toNat_lt_of_lt_bound {s : Store} {word : Word} (h : word < s.bound) :
    word.toNat < s.unigrams.size := by
  rw [UInt32.lt_iff_toNat_lt] at h
  exact Nat.lt_of_lt_of_le h (by simpa [bound] using Nat.mod_le _ _)

namespace Climb

theorem length_above_climb (s : Store) (context : List Word) (word : Word) :
    (s.climb context word).above.length ≤ context.length ∧
      (s.climb context word).above.length ≤ s.middle.size :=
  length_ascend s 0 (s.wordHit word) context

theorem length_state_le (s : Store) (context : List Word) (word : Word) :
    ((s.climb context word).state s.order context word).length ≤ s.order - 1 := by
  have habove := (length_above_climb s context word).2
  have hkept := (s.climb context word).length_kept_le
  have hmiddle := s.middle_size
  unfold state
  split
  next => dsimp only; omega
  next => exact Nat.zero_le _

end Climb

namespace Model

variable {m : Model}

/-- The part of a state that a model makes use of. -/
def context (m : Model) (state : State) : List Word := state.recent.take (m.store.order - 1)

/-- The climb for a word after a state. -/
def climb (m : Model) (state : State) (word : Word) : Climb :=
  m.store.climb (m.context state) word

/-- The score of a word before any backoff. -/
def found (m : Model) (state : State) (word : Word) : Score :=
  (m.climb state word).score m.store.order (m.context state).length

/-- The score of a word after a state, backoff included. -/
def scored (m : Model) (state : State) (word : Word) : Score :=
  let found := m.found state word
  { found with prob := found.prob + state.owed found.matched }

/-- The state behind a word. -/
def next (m : Model) (state : State) (word : Word) : State :=
  (m.climb state word).state m.store.order (m.context state) word

/-- The state behind words that are scored one after another. -/
def stateAfter (m : Model) (state : State) : List Word → Except Error State
  | [] => .ok state
  | word :: words =>
    match m.fullScore state word with
    | .ok (_, next) => m.stateAfter next words
    | .error e => .error e

/-- The same state, word after word. -/
def after (m : Model) (state : State) (words : List Word) : State := words.foldl m.next state

/-- The sum of the scores of words after a state, onto a sum. -/
def sumFrom (m : Model) (state : State) (sum : Single) : List Word → Single
  | [] => sum
  | word :: words => m.sumFrom (m.next state word) (sum + (m.scored state word).prob) words

/-- The number of steps that a machine takes for words after a state: one for each hit. -/
def stepsFrom (m : Model) (state : State) : List Word → Nat
  | [] => 0
  | word :: words =>
    (m.climb state word).above.length + 1 + m.stepsFrom (m.next state word) words

theorem after_append (m : Model) (state : State) (words more : List Word) :
    m.after state (words ++ more) = m.after (m.after state words) more :=
  List.foldl_append

theorem order_sub_one_le (m : Model) : m.store.order - 1 ≤ contextSize := by
  have : m.store.order ≤ contextSize + 1 := m.store.order_le
  omega

theorem length_next_le (m : Model) (state : State) (word : Word) :
    (m.next state word).length ≤ m.store.order - 1 :=
  Climb.length_state_le _ _ _

theorem fits_next (m : Model) (state : State) (word : Word) :
    (m.next state word).length ≤ contextSize :=
  Nat.le_trans (m.length_next_le state word) m.order_sub_one_le

/-- The part of a state that is used is no longer than the state and the order allow. -/
theorem length_context_le_min (m : Model) (state : State) :
    (m.context state).length ≤ min state.length (m.store.order - 1) := by
  rw [context, State.recent, List.length_take, List.length_take]
  omega

/-- A state grows by one word at most. -/
theorem length_next_le_succ (m : Model) (state : State) (word : Word) :
    (m.next state word).length ≤ state.length + 1 := by
  have habove := (Climb.length_above_climb m.store (m.context state) word).1
  have hkept := (m.store.climb (m.context state) word).length_kept_le
  have hcontext := m.length_context_le_min state
  rw [next, climb, Climb.state]
  split
  next => dsimp only; omega
  next => exact Nat.zero_le _

theorem length_beginState_le (m : Model) : m.beginState.length ≤ m.store.order - 1 := by
  unfold beginState
  split
  next h => exact Nat.le_sub_one_of_lt h
  next => exact Nat.zero_le _

theorem fits_beginState (m : Model) : m.beginState.length ≤ contextSize :=
  Nat.le_trans m.length_beginState_le m.order_sub_one_le

/-- A word of the vocabulary has weights. -/
theorem toNat_lt_of_lt_bound {word : Word} (h : word < m.vocabulary.bound) :
    word.toNat < m.store.unigrams.size := by
  rw [m.bound_eq] at h
  exact Store.toNat_lt_of_lt_bound h

/-- Without the backoff, scoring a word of the vocabulary is the climb for it. -/
theorem scoreWord_eq (m : Model) (state : State) {word : Word}
    (hword : word < m.vocabulary.bound) :
    ∃ walk, Walk.idle.scoreWord m.store state.recent word = .ok walk ∧
      walk.score = m.found state word ∧ walk.out = m.next state word := by
  obtain ⟨walk, hwalk, hended⟩ := Walk.scoreWord_eq .idle state.recent (toNat_lt_of_lt_bound hword)
  exact ⟨walk, hwalk, hended.score, hended.out⟩

/-- Scoring a word of the vocabulary after a state that fits cannot fail. -/
theorem fullScore_eq {state : State} {word : Word} (hfits : state.length ≤ contextSize)
    (hword : word < m.vocabulary.bound) :
    m.fullScore state word = .ok (m.scored state word, m.next state word) := by
  obtain ⟨walk, hwalk, hscore, hout⟩ := m.scoreWord_eq state hword
  unfold fullScore
  rw [State.context_eq hfits]
  simp only [bind, Except.bind, hwalk, State.backoffFrom_eq hfits, hscore, hout]
  rfl

/-- Words of the vocabulary leave a state behind, without a failure. -/
theorem stateAfter_eq {state : State} (hfits : state.length ≤ contextSize) {words : List Word}
    (hwords : ∀ word ∈ words, word < m.vocabulary.bound) :
    m.stateAfter state words = .ok (m.after state words) := by
  induction words generalizing state with
  | nil => rfl
  | cons word words ih =>
    rw [stateAfter, fullScore_eq hfits (hwords word List.mem_cons_self)]
    exact ih (m.fits_next state word) fun w hw => hwords w (List.mem_cons_of_mem _ hw)

/-- Words of the vocabulary are scored one after another, without a failure. -/
theorem scoreFrom_eq {state : State} (hfits : state.length ≤ contextSize) (sum : Single)
    {words : List Word} (hwords : ∀ word ∈ words, word < m.vocabulary.bound) :
    m.scoreFrom state sum words = .ok (m.sumFrom state sum words) := by
  induction words generalizing state sum with
  | nil => rfl
  | cons word words ih =>
    rw [scoreFrom, fullScore_eq hfits (hwords word List.mem_cons_self)]
    exact ih (m.fits_next state word) _ fun w hw => hwords w (List.mem_cons_of_mem _ hw)

end Model

end Ngram
