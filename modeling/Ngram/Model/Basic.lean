import Ngram.Model.Store
import Ngram.Model.Vocabulary
import Ngram.Score.Walk

/-!
# Models and sequential scoring

A model is a vocabulary together with the stored n-grams over it. It scores a word after a state:
the walk finds the longest stored n-gram that ends in the word, and every context length that the
match did not reach costs its backoff. A sentence is scored word after word, from the state behind
the beginning of a sentence, and its score is the sum in that order.
-/

namespace Ngram

/-- A vocabulary and weights for exactly its words. -/
structure Model where
  vocabulary : Vocabulary
  store : Store
  vocabulary_valid : vocabulary.Valid
  bound_eq : vocabulary.bound = store.bound

/-- The size of the table of one order. -/
structure TableStats where
  order : Nat
  entries : Nat
  buckets : Nat
  load : Double
  memory : Nat
deriving DecidableEq

namespace Model

/-- Puts a model together. -/
def ofParts (vocabulary : Vocabulary) (store : Store) : Except Error Model :=
  match h : vocabulary.validate with
  | .error e => .error e
  | .ok () =>
    if hb : vocabulary.bound = store.bound then
      .ok ⟨vocabulary, store, Vocabulary.validate_eq_ok.1 h, hb⟩
    else .error (.model (.boundMismatch vocabulary.bound store.bound.toNat))

/-- A model is put together again from its parts. -/
theorem ofParts_eq_ok_iff {vocabulary : Vocabulary} {store : Store} {m : Model} :
    ofParts vocabulary store = .ok m ↔ m.vocabulary = vocabulary ∧ m.store = store := by
  constructor
  · intro h
    unfold ofParts at h
    split at h
    next => cases h
    next =>
      split at h
      next =>
        cases h
        exact ⟨rfl, rfl⟩
      next => cases h
  · intro h
    obtain ⟨rfl, rfl⟩ := h
    unfold ofParts
    split
    next hcheck =>
      rw [Vocabulary.validate_eq_ok.2 m.vocabulary_valid] at hcheck
      cases hcheck
    next => rw [dif_pos m.bound_eq]

theorem beginSentence_lt (m : Model) :
    m.vocabulary.beginSentence.toNat < m.store.unigrams.size := by
  have h := m.vocabulary_valid.beginSentence_lt
  rw [m.bound_eq, UInt32.lt_iff_toNat_lt] at h
  exact Nat.lt_of_lt_of_le h (by simpa [Store.bound] using Nat.mod_le _ _)

/-- The state behind the beginning of a sentence. Models of order one have no context. -/
def beginState (m : Model) : State :=
  if 1 < m.store.order then
    have := m.beginSentence_lt
    let weights := m.store.unigrams[m.vocabulary.beginSentence.toNat]
    { words := State.empty.words.set 0 m.vocabulary.beginSentence contextSize_pos
      backoffs := State.empty.backoffs.set 0 weights.backoff contextSize_pos
      length := 1 }
  else .empty

/-- Scores a word after a state, the backoff that it owes included, and gives the next state. -/
def fullScore (m : Model) (state : State) (word : Word) : Except Error (Score × State) := do
  let context ← state.context
  let walk ← Walk.idle.scoreWord m.store context word
  let owed ← state.backoffFrom walk.score.matched
  .ok ({ walk.score with prob := walk.score.prob + owed }, walk.out)

/-- The same for a word that may lie outside the vocabulary. -/
def tryFullScore (m : Model) (state : State) (word : Word) : Except Error (Score × State) := do
  m.vocabulary.check word
  m.fullScore state word

/-- Adds the scores of words after a state onto a sum. -/
def scoreFrom (m : Model) (state : State) (sum : Single) : List Word → Except Error Single
  | [] => .ok sum
  | word :: words =>
    match m.fullScore state word with
    | .ok (score, next) => m.scoreFrom next (sum + score.prob) words
    | .error e => .error e

/-- Scores a sentence. -/
def scoreSentence (m : Model) (words : List Word) : Except Error Single :=
  m.scoreFrom m.beginState .zero words

/-- The sizes of the tables, single words first. -/
def tableStats (m : Model) : List TableStats :=
  let s := m.store
  let one := s.unigrams.size
  let stats {α : Type} [Entry α] (order : Nat) (t : Table α) : TableStats :=
    ⟨order, t.count, t.size, t.load, t.memory⟩
  ⟨1, one, one, .ofValue 1.0, one * 12⟩ :: s.middle.toList.mapIdx (fun i t => stats (i + 2) t) ++
    if 1 < s.order then [stats s.order s.longest] else []

end Model

end Ngram
