import Ngram.Proofs.Model.Lookup
import Ngram.Proofs.Score.History
import Ngram.Proofs.Score.Records
import Ngram.Proofs.Stored.Image

/-!
# What a state says, whatever the tables hold

A model need not have been built: the buckets of a loaded one may hold anything. Nevertheless a
state that scoring has reached says what it is meant to say: its words are the last words, and each
of its backoffs is that of the weights that a look-up finds for the words beside it. Behind these
nothing of earlier words is left over.

> `Model.Means`: what a state says of the words before it.
> `means_next`, `means_after`: one word, and then any number of words, leave a state that says so.
-/

namespace Ngram

namespace Climb

/-- The backoffs that a state counts are those of hits. -/
theorem backoffs_state_of_lt (s : Store) (context : List Word) (word : Word) (i : Fin contextSize)
    (hi : i < ((s.climb context word).state s.order context word).length) :
    ∃ hit, ((s.climb context word).base :: (s.climb context word).above)[i.val]? = some hit ∧
      ((s.climb context word).state s.order context word).backoffs[i] = hit.backoff := by
  have hsame := congrArg (fun l => l[i.val]?) (backoffs_state s context word)
  rw [List.getElem?_take_of_lt hi, List.getElem?_take_of_lt hi, backoffs, List.getElem?_map,
    Vector.getElem?_toList, Vector.getElem?_eq_getElem i.isLt] at hsame
  obtain ⟨hit, hget, hbackoff⟩ := Option.map_eq_some_iff.1 hsame.symm
  exact ⟨hit, hget, hbackoff.symm⟩

/-- What stands behind the words that a state keeps was never written. -/
theorem words_state_of_le (s : Store) (context : List Word) (word : Word) (i : Fin contextSize)
    (hi : max ((s.climb context word).state s.order context word).length 1 ≤ i) :
    ((s.climb context word).state s.order context word).words[i] = 0 := by
  rw [length_state] at hi
  unfold state
  split
  next hone =>
    have hnone :
        (word :: context.take ((s.climb context word).kept.length - 1))[i.val]? = none := by
      rw [if_pos hone] at hi
      rw [List.getElem?_eq_none_iff, List.length_cons, List.length_take]
      omega
    show (Walk.overwrite _ _)[i.val] = 0
    rw [Walk.getElem_overwrite, hnone]
    simp [State.empty]
  next => simp [State.empty]

/-- The backoffs that a state does not count are blank, or those of hits that it dropped. -/
theorem backoffs_state_of_le (s : Store) (context : List Word) (word : Word) (i : Fin contextSize)
    (hi : ((s.climb context word).state s.order context word).length ≤ i) :
    ((s.climb context word).state s.order context word).backoffs[i] = .zero ∨
      ((s.climb context word).state s.order context word).backoffs[i] = .negZero := by
  rw [length_state] at hi
  unfold state
  split
  next hone =>
    rw [if_pos hone] at hi
    show (Walk.overwrite _ _)[i.val] = _ ∨ (Walk.overwrite _ _)[i.val] = _
    rw [Walk.getElem_overwrite, backoffs, List.getElem?_map]
    cases hget : ((s.climb context word).base :: (s.climb context word).above)[i.val]? with
    | none => exact Or.inl (by simp [State.empty])
    | some hit =>
      -- a hit that can be extended would have been kept
      refine Or.inr ?_
      by_contra hne
      exact absurd (lt_length_kept hget (bne_iff_ne.2 hne)) (Nat.not_lt_of_le hi)
  next => exact Or.inl (by simp [State.empty])

end Climb

namespace Model

variable {m : Model} {history : List Word} {state : State} {word : Word}

/-- What a state says of the words before it: it holds the last of them, most recent first, each
with the backoff of the n-gram that it begins, and is blank behind them. -/
structure Means (m : Model) (history : List Word) (state : State) : Prop where
  length_le_order : state.length ≤ m.store.order - 1
  length_le : state.length ≤ history.length
  recent : state.recent = (history.rtake state.length).reverse
  backoff : ∀ i : Fin contextSize, i < state.length →
    ∃ w, m.store.weightsOf (state.recent.take (i + 1)).reverse = some w ∧
      state.backoffs[i] = w.backoff
  words_blank : ∀ i : Fin contextSize, max state.length 1 ≤ i → state.words[i] = 0
  backoffs_blank : ∀ i : Fin contextSize, state.length ≤ i →
    state.backoffs[i] = .zero ∨ state.backoffs[i] = .negZero

/-- The state with no context says nothing. -/
theorem means_empty (m : Model) (history : List Word) : m.Means history .empty where
  length_le_order := Nat.zero_le _
  length_le := Nat.zero_le _
  recent := by
    show [] = (history.rtake 0).reverse
    rw [List.rtake_zero, List.reverse_nil]
  backoff i hi := absurd hi (Nat.not_lt_zero _)
  words_blank i _ := by simp [State.empty]
  backoffs_blank i _ := Or.inl (by simp [State.empty])

/-- The state behind the beginning of a sentence says that it stands there. -/
theorem means_beginState (m : Model) : m.Means [m.vocabulary.beginSentence] m.beginState := by
  unfold beginState
  split
  next hone =>
    have hlt := m.beginSentence_lt
    refine ⟨Nat.le_sub_one_of_lt hone, Nat.le_refl _, rfl, fun i hi => ?_, fun i hi => ?_,
      fun i hi => Or.inl ?_⟩
    · obtain ⟨i, hlast⟩ := i
      obtain rfl : i = 0 := Nat.lt_one_iff.1 hi
      exact ⟨_, Array.getElem?_eq_getElem hlt, rfl⟩
    · have hpos : 1 ≤ i.val := hi
      simp [State.empty, Nat.ne_of_lt hpos]
    · have hpos : 1 ≤ i.val := hi
      simp [State.empty, Nat.ne_of_lt hpos]
  next => exact m.means_empty _

/-- A state that says what it is meant to is used as a whole. -/
theorem Means.context_eq (h : m.Means history state) :
    m.context state = (history.rtake state.length).reverse :=
  context_eq_of_recent h.length_le_order h.length_le h.recent

/-- **One word.** Scoring a word of the vocabulary leaves a state that says what it is meant to of
the history with this word. -/
theorem Means.means_next (h : m.Means history state) (hword : word < m.vocabulary.bound) :
    m.Means (history ++ [word]) (m.next state word) := by
  have hle := h.length_le
  have hreach := m.length_next_le_succ state word
  refine ⟨m.length_next_le state word, ?_, ?_, fun i hi => ?_,
    Climb.words_state_of_le m.store (m.context state) word,
    Climb.backoffs_state_of_le m.store (m.context state) word⟩
  · rw [List.length_append, List.length_singleton]
    omega
  · rw [m.recent_next, h.context_eq]
    exact take_cons_rtake word hreach
  · -- a backoff that counts is that of a hit, and the hit that of the words beside it
    obtain ⟨hit, hget, hbackoff⟩ :=
      Climb.backoffs_state_of_lt m.store (m.context state) word i hi
    obtain ⟨w, hw, hsame⟩ :=
      Climb.weightsOf_of_getElem?_hits (toNat_lt_of_lt_bound hword) hget
    refine ⟨w, ?_, hbackoff.trans (congrArg Hit.backoff hsame)⟩
    rw [m.recent_next, List.take_take, Nat.min_eq_left hi, List.take_succ_cons, List.reverse_cons]
    exact hw

/-- **Any number of words.** A state that says what it is meant to still does behind words of the
vocabulary. -/
theorem Means.means_after (h : m.Means history state) {words : List Word}
    (hwords : ∀ word ∈ words, word < m.vocabulary.bound) :
    m.Means (history ++ words) (m.after state words) := by
  induction words generalizing history state with
  | nil =>
    rw [List.append_nil]
    exact h
  | cons word words ih =>
    rw [List.forall_mem_cons] at hwords
    rw [List.append_cons]
    exact ih (h.means_next hwords.1) hwords.2

/-- **Every reachable state means what it says.** From the beginning of a sentence as from no
context, scoring words of the vocabulary one after another cannot fail, and the state that it leaves
holds the last words, with the backoffs that the tables hold for them, and nothing else. This asks
nothing of the tables: they may hold anything that can be loaded. -/
theorem means_stateAfter (m : Model) {words : List Word}
    (hwords : ∀ word ∈ words, word < m.vocabulary.bound) :
    (∃ state, m.stateAfter m.beginState words = .ok state ∧
      m.Means (m.vocabulary.beginSentence :: words) state) ∧
    ∃ state, m.stateAfter .empty words = .ok state ∧ m.Means words state :=
  ⟨⟨_, stateAfter_eq m.fits_beginState hwords, m.means_beginState.means_after hwords⟩,
    _, stateAfter_eq (Nat.zero_le _) hwords, (m.means_empty []).means_after hwords⟩

/-- A model whose one table holds a key that is not at home where it stands, and behind it the pair
`1 2` twice. Its word `2` alone cannot be extended, but the pair can. -/
def misplacedModel : Model :=
  { paddedModel with
    store := { paddedModel.store with
      middle := #[
        { slots := #[⟨7, ⟨⟨0x3f800000⟩, .zero, .zero⟩, 0⟩,
            ⟨Gram.key [1, 2], ⟨⟨0xbf000000⟩, ⟨0xbe800000⟩, ⟨0xbf000000⟩⟩, 0⟩,
            ⟨Gram.key [1, 2], ⟨⟨0xbf800000⟩, .zero, ⟨0xbf800000⟩⟩, 0⟩,
            ⟨0, ⟨.zero, .zero, .zero⟩, 0⟩]
          reducer := .mask 3, slots_pos := by decide, slots_lt := by decide, reducer_eq := rfl
          count := 3, count_eq := by decide, count_lt := by decide }]
      middle_size := rfl } }

/-- Behind the beginning of a sentence the word `2` leaves a state of two words, although the word
alone would leave none. -/
theorem means_stateAfter_pair :
    (∀ word ∈ [2], word < misplacedModel.vocabulary.bound) ∧
      ∃ state, misplacedModel.stateAfter misplacedModel.beginState [2] = .ok state ∧
        state.recent = [2, 1] ∧ misplacedModel.Means [1, 2] state := by
  have hwords : ∀ word ∈ [2], word < misplacedModel.vocabulary.bound :=
    List.forall_mem_singleton.2 (by decide)
  obtain ⟨⟨state, hstate, hmeans⟩, -⟩ := means_stateAfter misplacedModel hwords
  have hsame := hstate.symm.trans (stateAfter_eq misplacedModel.fits_beginState hwords)
  obtain rfl := Except.ok.inj hsame
  exact ⟨hwords, _, hstate, by decide, hmeans⟩

end Model

end Ngram
