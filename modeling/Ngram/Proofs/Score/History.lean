import Ngram.Proofs.Score.Suffixes

/-!
# What a state keeps of the words before it

A state holds only as many of the last words as can still matter. It follows a history if it holds
its last words, the n-grams of these words are stored, and the backoffs beside them are theirs.

> `Follows`: what links a state to all the words before it.
> `lt_reach_iff`: the match of the next word, in terms of the history.
> `follows_next`, `lt_length_next`: a word leaves a state that follows the longer history, and that
> keeps each n-gram of the match that can be extended.
> `follows_after`: the same after any number of words.
-/

namespace Ngram

/-- What is dropped at the end of a list is all of the kind to be dropped. -/
theorem lt_length_rdropWhile {α : Type} {p : α → Bool} {l : List α} {i : Nat} {x : α}
    (hget : l[i]? = some x) (hx : p x = false) : i < (l.rdropWhile p).length := by
  induction l using List.reverseRecOn with
  | nil => cases hget
  | append_singleton l y ih =>
    rw [List.rdropWhile_concat]
    split
    next hy =>
      rcases Nat.lt_or_ge i l.length with hlt | hge
      · rw [List.getElem?_append_left hlt] at hget
        exact ih hget
      · -- the last element is of the kind, so it is not the one in question
        obtain rfl : i = l.length := by
          have := (List.getElem?_eq_some_iff.1 hget).1
          simp only [List.length_append, List.length_singleton] at this
          omega
        rw [List.getElem?_concat_length] at hget
        cases hget
        rw [hx] at hy
        cases hy
    next => exact (List.getElem?_eq_some_iff.1 hget).1

theorem take_overwrite {n k : Nat} {α : Type} (buffer : Vector α n) (front : List α)
    (hk : k ≤ front.length) (hn : k ≤ n) :
    (Walk.overwrite buffer front).toList.take k = front.take k := by
  apply List.ext_getElem?
  intro i
  rcases Nat.lt_or_ge i k with hlt | hge
  · rw [List.getElem?_take_of_lt hlt, List.getElem?_take_of_lt hlt, Vector.getElem?_toList,
      Vector.getElem?_eq_getElem (by omega), Walk.getElem_overwrite,
      List.getElem?_eq_getElem (by omega)]
    rfl
  · rw [List.getElem?_eq_none (by simp; omega), List.getElem?_eq_none (by simp; omega)]

namespace Climb

/-- The hit of an n-gram that can be extended is kept. -/
theorem lt_length_kept {c : Climb} {i : Nat} {hit : Hit}
    (hget : (c.base :: c.above)[i]? = some hit) (hext : hasExtension hit.backoff = true) :
    i < c.kept.length :=
  lt_length_rdropWhile hget (by rw [hext]; rfl)

section State

variable (s : Store) (context : List Word) (word : Word)

theorem fits_state : ((s.climb context word).state s.order context word).length ≤ contextSize := by
  have horder : s.order ≤ contextSize + 1 := s.order_le
  have hlen := length_state_le s context word
  omega

theorem length_state : ((s.climb context word).state s.order context word).length =
    if 1 < s.order then (s.climb context word).kept.length else 0 := by
  unfold state
  split
  next => rfl
  next => rfl

/-- A state keeps the word and the context before it. -/
theorem recent_state : ((s.climb context word).state s.order context word).recent =
    (word :: context).take ((s.climb context word).state s.order context word).length := by
  have hfits := fits_state s context word
  have habove := (length_above_climb s context word).1
  have hkept := (s.climb context word).length_kept_le
  rw [State.recent]
  revert hfits
  rw [length_state]
  unfold state
  split
  next =>
    intro hfits
    cases hk : (s.climb context word).kept.length with
    | zero => rfl
    | succ k =>
      rw [hk] at hfits hkept
      have hlen : (word :: context.take k).length = k + 1 := by simp; omega
      rw [Nat.add_sub_cancel, take_overwrite _ _ (Nat.le_of_eq hlen.symm) hfits,
        List.take_succ_cons, List.take_succ_cons, List.take_take, Nat.min_self]
  next => exact fun _ => rfl

/-- The backoffs of a state are those that the climb found. -/
theorem backoffs_state : ((s.climb context word).state s.order context word).backoffs.toList.take
      ((s.climb context word).state s.order context word).length =
    (s.climb context word).backoffs.take
      ((s.climb context word).state s.order context word).length := by
  have hfits := fits_state s context word
  have hkept := (s.climb context word).length_kept_le
  revert hfits
  rw [length_state]
  unfold state
  split
  next =>
    intro hfits
    exact take_overwrite _ _ (by rw [length_backoffs]; exact hkept) hfits
  next => exact fun _ => rfl

end State

end Climb

theorem length_rtake {l : List Word} {n : Nat} (h : n ≤ l.length) : (l.rtake n).length = n := by
  rw [List.rtake, List.length_drop]
  omega

/-- What a climb looks for behind the last words of a history, in terms of the history. -/
theorem take_rtake_concat {history : List Word} {n i : Nat} (word : Word) (hi : i ≤ n) :
    ((history.rtake n).reverse.take i).reverse ++ [word] = (history ++ [word]).rtake (i + 1) := by
  rw [List.rtake_concat_succ]
  congr 1
  rw [List.rtake_eq_reverse_take_reverse, List.rtake_eq_reverse_take_reverse, List.reverse_reverse,
    List.take_take, Nat.min_eq_left hi]

/-- A word in front of the last words of a history, in terms of the history with this word. -/
theorem take_cons_rtake {history : List Word} {n k : Nat} (word : Word) (hk : k ≤ n + 1) :
    (word :: (history.rtake n).reverse).take k = ((history ++ [word]).rtake k).reverse := by
  cases k with
  | zero => simp
  | succ k =>
    rw [← take_rtake_concat word (Nat.le_of_succ_le_succ hk)]
    simp

/-- A state that holds the last words of a history, no more than the order allows, is used as a
whole. -/
theorem Model.context_eq_of_recent {m : Model} {history : List Word} {s : State}
    (horder : s.length ≤ m.store.order - 1) (hle : s.length ≤ history.length)
    (hrecent : s.recent = (history.rtake s.length).reverse) :
    m.context s = (history.rtake s.length).reverse := by
  rw [context, hrecent, List.take_of_length_le]
  rwa [List.length_reverse, length_rtake hle]

/-- A word is put in front of the words of a state, as far as the next state reaches. -/
theorem Model.recent_next (m : Model) (s : State) (word : Word) :
    (m.next s word).recent = (word :: m.context s).take (m.next s word).length :=
  Climb.recent_state m.store (m.context s) word

namespace Builder

variable {b : Builder} {m : Model} {history : List Word} {s : State} {word : Word}

/-- A state follows a history if it holds its last words, all n-grams that they end with are stored,
and it has the backoffs of these. -/
structure Follows (b : Builder) (history : List Word) (s : State) : Prop where
  length_lt : s.length < b.order
  length_le : s.length ≤ history.length
  recent : s.recent = (history.rtake s.length).reverse
  backoffs : s.backoffs.toList.take s.length =
    (List.range' 1 s.length).map fun length => b.storedBackoff (history.rtake length)
  stored : ∀ length, 1 ≤ length → length ≤ s.length → b.Stored (history.rtake length)

/-- The state with no context follows any history. -/
theorem follows_empty (h : b.WellFormed) (history : List Word) : b.Follows history .empty where
  length_lt := h.order_pos
  length_le := Nat.zero_le _
  recent := by
    show [] = (history.rtake 0).reverse
    rw [List.rtake_zero, List.reverse_nil]
  backoffs := rfl
  stored _ hpos hle := absurd hpos (Nat.not_le_of_lt (Nat.lt_succ_of_le hle))

/-- The state behind the beginning of a sentence follows the history of just this word. -/
theorem follows_beginState (h : b.Built m) (hformed : b.WellFormed) :
    b.Follows [b.vocabulary.beginSentence] m.beginState := by
  unfold Model.beginState
  split
  next hone =>
    have hlt := m.beginSentence_lt
    have hhit := h.wordHit_eq hformed.vocabulary.beginSentence_lt
    rw [← h.vocabulary] at hhit ⊢
    have hbackoff : m.store.unigrams[m.vocabulary.beginSentence.toNat].backoff =
        b.storedBackoff [m.vocabulary.beginSentence] := by
      rw [Store.wordHit, Array.getElem?_eq_getElem hlt] at hhit
      exact congrArg Hit.backoff hhit
    refine ⟨h.order ▸ hone, Nat.le_refl _, rfl, ?_, fun length hpos hle => Or.inl ?_⟩
    · exact congrArg (fun backoff => [backoff]) hbackoff
    · obtain rfl : length = 1 := Nat.le_antisymm hle hpos
      rfl
  next => exact follows_empty hformed _

namespace Follows

theorem fits (hs : b.Follows history s) (hformed : b.WellFormed) : s.length ≤ contextSize := by
  have horder : b.order ≤ contextSize + 1 := hformed.order_le
  have := hs.length_lt
  omega

theorem context_eq (hs : b.Follows history s) (h : b.Built m) :
    m.context s = (history.rtake s.length).reverse :=
  Model.context_eq_of_recent (h.order ▸ Nat.le_sub_one_of_lt hs.length_lt) hs.length_le hs.recent

theorem length_context (hs : b.Follows history s) (h : b.Built m) :
    (m.context s).length = s.length := by
  have := hs.length_le
  rw [hs.context_eq h, List.length_reverse, List.rtake, List.length_drop]
  omega

theorem length_context_lt (hs : b.Follows history s) (h : b.Built m) :
    (m.context s).length < b.order := by
  rw [hs.length_context h]
  exact hs.length_lt

/-- What a climb looks for, in terms of the history. -/
theorem behind_eq (hs : b.Follows history s) (h : b.Built m) {i : Nat} (hi : i ≤ s.length) :
    ((m.context s).take i).reverse ++ [word] = (history ++ [word]).rtake (i + 1) := by
  rw [hs.context_eq h]
  exact take_rtake_concat word hi

section Step

variable (hs : b.Follows history s) (h : b.Built m) (hformed : b.WellFormed)
  (hword : word < b.vocabulary.bound)
  (hclear : ∀ g, g <:+ history ++ [word] → 2 ≤ g.length → b.Clear g)

include hs h

variable (word) in
theorem reach_le : b.reach (m.context s) word ≤ s.length + 1 := by
  have := Builder.reach_le b (m.context s) word
  rwa [hs.length_context h] at this

variable (word) in
/-- The match of the next word has as many words as its reach. -/
theorem length_rtake_reach :
    ((history ++ [word]).rtake (b.reach (m.context s) word)).length =
      b.reach (m.context s) word := by
  have hreach := hs.reach_le word h
  have hle := hs.length_le
  rw [length_rtake]
  rw [List.length_append, List.length_singleton]
  omega

variable (word) in
include hformed in
/-- The stored n-grams that end a history with one more word, as far as the state reaches back. -/
theorem lt_reach_iff {i : Nat} : i < b.reach (m.context s) word ↔
    i ≤ s.length ∧ b.Stored ((history ++ [word]).rtake (i + 1)) := by
  rw [hformed.lt_reach_iff, hs.length_context h]
  exact and_congr_right fun hi => by rw [hs.behind_eq h hi]

include hclear in
theorem clear_behind (i : Nat) (hpos : 1 ≤ i) (hi : i ≤ (m.context s).length) :
    b.Clear (((m.context s).take i).reverse ++ [word]) := by
  rw [hs.length_context h] at hi
  rw [hs.behind_eq h hi]
  refine hclear _ (List.drop_suffix _ _) ?_
  have := hs.length_le
  simp only [List.rtake, List.length_drop, List.length_append, List.length_singleton]
  omega

include hword hclear

/-- The match of the next word, with the probability stored for it. -/
theorem found_eq : (m.found s word).matched = b.reach (m.context s) word ∧
    (m.found s word).prob =
      b.storedProb ((history ++ [word]).rtake (b.reach (m.context s) word)) := by
  have hreach := hs.reach_le word h
  have hpos := b.reach_pos (m.context s) word
  have hscore := h.score_climb hword (hs.length_context_lt h) (hs.clear_behind h hclear)
    (m.context s).length
  rw [hs.behind_eq h (by omega), Nat.sub_add_cancel hpos, ← h.order] at hscore
  exact hscore

theorem length_next_le : (m.next s word).length ≤ b.reach (m.context s) word := by
  have habove := h.length_above hword (hs.length_context_lt h) (hs.clear_behind h hclear)
  have hkept := (m.store.climb (m.context s) word).length_kept_le
  have hpos := b.reach_pos (m.context s) word
  rw [Model.next, Model.climb, Climb.length_state]
  split
  next => omega
  next => exact Nat.zero_le _

/-- The state behind a word keeps each n-gram of the match that can be extended. -/
theorem lt_length_next {i : Nat} (hi : i < b.reach (m.context s) word) (horder : i + 1 < b.order)
    (hext : hasExtension (b.storedBackoff ((history ++ [word]).rtake (i + 1))) = true) :
    i < (m.next s word).length := by
  have hreach := hs.reach_le word h
  have hget := h.getElem?_hits hword (hs.length_context_lt h) (hs.clear_behind h hclear) hi
    (by omega)
  rw [hs.behind_eq h (by omega)] at hget
  rw [Model.next, Model.climb, Climb.length_state, h.order, if_pos (by omega)]
  exact Climb.lt_length_kept hget hext

include hformed in
/-- A word leaves a state that follows the history with this word. -/
theorem follows_next : b.Follows (history ++ [word]) (m.next s word) := by
  have hnext := hs.length_next_le h hword hclear
  have hreach := hs.reach_le word h
  have horder := m.length_next_le s word
  have hpos := hformed.order_pos
  have hle := hs.length_le
  rw [h.order] at horder
  refine ⟨by omega, ?_, ?_, ?_, ?_⟩
  · rw [List.length_append, List.length_singleton]
    omega
  · -- the words: the new one in front of as much of the context as is kept
    rw [m.recent_next, hs.context_eq h]
    exact take_cons_rtake word (Nat.le_trans hnext hreach)
  · -- the backoffs: those of the hits, which are the hits of the n-grams that end the history
    rw [Model.next, Model.climb, Climb.backoffs_state]
    show (m.store.climb (m.context s) word).backoffs.take (m.next s word).length =
      (List.range' 1 (m.next s word).length).map _
    apply List.ext_getElem?
    intro i
    rcases Nat.lt_or_ge i (m.next s word).length with hi | hge
    · have hget := h.getElem?_hits hword (hs.length_context_lt h) (hs.clear_behind h hclear)
        (Nat.lt_of_lt_of_le hi hnext) (by omega)
      rw [hs.behind_eq h (by omega)] at hget
      rw [List.getElem?_take_of_lt hi, Climb.backoffs, List.getElem?_map, hget, List.getElem?_map,
        List.getElem?_range' hi, Nat.one_mul, Nat.add_comm 1 i]
      rfl
    · rw [List.getElem?_eq_none (by simp; omega), List.getElem?_eq_none (by simp; omega)]
  · intro length hlow hhigh
    have := (hs.lt_reach_iff word h hformed (i := length - 1)).1 (by omega)
    rw [Nat.sub_add_cancel hlow] at this
    exact this.2

end Step

/-- Words leave a state that follows the history with these words. -/
theorem follows_after (h : b.Built m) (hformed : b.WellFormed) (hs : b.Follows history s)
    {words : List Word} (hwords : ∀ word ∈ words, word < b.vocabulary.bound)
    (hclear : ∀ g, g <:+: history ++ words → 2 ≤ g.length → b.Clear g) :
    b.Follows (history ++ words) (m.after s words) := by
  induction words generalizing history s with
  | nil =>
    rw [List.append_nil]
    exact hs
  | cons word words ih =>
    rw [List.forall_mem_cons] at hwords
    rw [List.append_cons] at hclear ⊢
    have hnext := hs.follows_next h hformed hwords.1 fun g hg =>
      hclear g (hg.isInfix.trans (List.prefix_append _ _).isInfix)
    exact ih hnext hwords.2 hclear

end Follows

end Builder

end Ngram
