import Ngram.Proofs.Model.Listed
import Ngram.Proofs.Score.History

/-!
# Scoring in steps is scoring with the whole history

Plain backoff scoring takes a word with all words before it: it looks for the longest stored n-gram
that ends there, and charges the backoff of every longer n-gram that ends the history before the
word. A model never sees that history. It scores with the state behind the last word, which was cut.

> `Cut`: all that is cut off a state has no extension, and costs nothing.
> `Cut.lt_reach`: if beginnings are stored, no match reaches past the cut.
> `Cut.next`, `cut_after`: this is kept from word to word.
> `backoffsFrom_eq`: what a state owes is what plain scoring charges, but for `-0.0` at the end.
> `fullScore_plain`: at every word, the two scores are the same.
-/

namespace Ngram

namespace Builder

variable {b : Builder} {m : Model} {history : List Word} {s : State} {word : Word}

instance (b : Builder) (g : Gram) : Decidable (b.Stored g) := inferInstanceAs (Decidable (_ ∨ _))

/-- The longest stored n-gram, up to the order, that ends a history. -/
structure Longest (b : Builder) (history : List Word) (g : Gram) : Prop where
  suffix : g <:+ history
  length_le : g.length ≤ b.order
  stored : b.Stored g
  maximal : ∀ g', g' <:+ history → g'.length ≤ b.order → b.Stored g' → g'.length ≤ g.length

/-- The backoffs that a history costs for a match of a given length: those of the stored n-grams
that end it and are not shorter, but shorter than the order. -/
def backoffsFrom (b : Builder) (history : List Word) (matched : Nat) : List Single :=
  ((List.range' matched (b.order - matched)).filter fun length =>
    length ≤ history.length ∧ b.Stored (history.rtake length)).map fun length =>
      b.storedBackoff (history.rtake length)

/-- The plain score of a match behind a history. -/
def plainProb (b : Builder) (history : List Word) (g : Gram) : Single :=
  b.storedProb g + (b.backoffsFrom history g.length).foldl (· + ·) .zero

/-- No stored n-gram that ends a history but is longer than the state has an extension. -/
def Cut (b : Builder) (history : List Word) (s : State) : Prop :=
  ∀ length, s.length < length → length < b.order → length ≤ history.length →
    b.Stored (history.rtake length) → hasExtension (b.storedBackoff (history.rtake length)) = false

theorem rtake_length_of_suffix {g : Gram} (h : g <:+ history) : history.rtake g.length = g :=
  (List.suffix_iff_eq_drop.1 h).symm

/-- A stored n-gram of two words and more is one that begins with a stored n-gram. -/
theorem stored_dropLast (hbegun : b.PrefixClosed) {g : Gram} (hg : g ∈ b.grams)
    (hlen : 2 ≤ g.length) : b.Stored g.dropLast := by
  rcases Nat.lt_or_eq_of_le hlen with hthree | htwo
  · exact Or.inr (hbegun g hg hthree)
  · exact Or.inl (by rw [List.length_dropLast, ← htwo])

namespace Cut

/-- **No match reaches past the cut.** A stored n-gram past it would begin with a stored n-gram that
was cut off although it can be extended. -/
theorem lt_reach (hcut : b.Cut history s) (hs : b.Follows history s) (h : b.Built m)
    (hformed : b.WellFormed) (hbegun : b.PrefixClosed) {i : Nat} (hi : i ≤ history.length)
    (horder : i < b.order) (hstored : b.Stored ((history ++ [word]).rtake (i + 1))) :
    i < b.reach (m.context s) word := by
  rw [hs.lt_reach_iff word h hformed]
  refine ⟨?_, hstored⟩
  by_contra hpast
  -- the n-gram was collected, so what it begins with was kept: it can be extended
  have hlen : ((history ++ [word]).rtake (i + 1)).length = i + 1 := by
    rw [length_rtake]
    rw [List.length_append, List.length_singleton]
    exact Nat.succ_le_succ hi
  have hmem : (history ++ [word]).rtake (i + 1) ∈ b.grams :=
    hstored.resolve_left (by omega)
  have hbegin : ((history ++ [word]).rtake (i + 1)).dropLast = history.rtake i := by
    rw [List.rtake_concat_succ, List.dropLast_concat]
  have hbefore := stored_dropLast hbegun hmem (by omega)
  rw [hbegin] at hbefore
  have hext := hasExtension_of_begun hmem (by omega) hbegin
  rw [hcut i (by omega) horder hi hbefore] at hext
  cases hext

/-- What is cut off behind the next word has no extension either. -/
theorem next (hcut : b.Cut history s) (hs : b.Follows history s) (h : b.Built m)
    (hformed : b.WellFormed) (hbegun : b.PrefixClosed) (hword : word < b.vocabulary.bound)
    (hclear : ∀ g, g <:+ history ++ [word] → 2 ≤ g.length → b.Clear g) :
    b.Cut (history ++ [word]) (m.next s word) := by
  intro length hpast horder hle hstored
  -- the climb met this n-gram, and would have kept it if it could be extended
  obtain ⟨i, rfl⟩ : ∃ i, length = i + 1 := ⟨length - 1, by omega⟩
  rw [List.length_append, List.length_singleton] at hle
  have hreach := hcut.lt_reach hs h hformed hbegun (Nat.le_of_succ_le_succ hle) (by omega) hstored
  rw [← Bool.not_eq_true]
  intro hext
  have := hs.lt_length_next h hword hclear hreach horder hext
  omega

end Cut

/-- Nothing is cut off a state that is as long as its history. -/
theorem cut_of_length_le (h : history.length ≤ s.length) : b.Cut history s :=
  fun _ hpast _ hle _ => absurd hle (by omega)

/-- Nothing is cut off the state behind the beginning of a sentence. -/
theorem cut_beginState (h : b.Built m) : b.Cut [b.vocabulary.beginSentence] m.beginState := by
  unfold Model.beginState
  split
  next => exact cut_of_length_le (Nat.le_refl _)
  next hone =>
    intro length hpast horder
    rw [← h.order] at horder
    omega

/-- Words leave a state that follows the whole history, and of which only what has no extension was
cut off. -/
theorem cut_after (h : b.Built m) (hformed : b.WellFormed) (hbegun : b.PrefixClosed)
    (hs : b.Follows history s) (hcut : b.Cut history s) {words : List Word}
    (hwords : ∀ word ∈ words, word < b.vocabulary.bound)
    (hclear : ∀ g, g <:+: history ++ words → 2 ≤ g.length → b.Clear g) :
    b.Cut (history ++ words) (m.after s words) := by
  induction words generalizing history s with
  | nil =>
    rw [List.append_nil]
    exact hcut
  | cons word words ih =>
    rw [List.forall_mem_cons] at hwords
    rw [List.append_cons] at hclear ⊢
    have hsuffix : ∀ g, g <:+ history ++ [word] → 2 ≤ g.length → b.Clear g := fun g hg =>
      hclear g (hg.isInfix.trans (List.prefix_append _ _).isInfix)
    exact ih (hs.follows_next h hformed hwords.1 hsuffix)
      (hcut.next hs h hformed hbegun hwords.1 hsuffix) hwords.2 hclear

section Plain

variable (hs : b.Follows history s) (hcut : b.Cut history s)

include hs hcut

/-- The match of a climb is the longest of the whole history. -/
theorem longest_rtake (h : b.Built m) (hformed : b.WellFormed) (hbegun : b.PrefixClosed) :
    b.Longest (history ++ [word]) ((history ++ [word]).rtake (b.reach (m.context s) word)) := by
  have hreach := hs.reach_le word h
  have hpos := b.reach_pos (m.context s) word
  have hlt := hs.length_lt
  have hlen := hs.length_rtake_reach word h
  refine ⟨List.drop_suffix _ _, by omega, ?_, ?_⟩
  · have := ((hs.lt_reach_iff word h hformed).1 (Nat.sub_one_lt_of_lt hpos)).2
    rwa [Nat.sub_add_cancel hpos] at this
  · intro g' hsuffix hlong hstored
    rw [hlen]
    cases hlength : g'.length with
    | zero => exact Nat.zero_le _
    | succ i =>
      rw [← rtake_length_of_suffix hsuffix, hlength] at hstored
      have hroom := hsuffix.length_le
      rw [List.length_append, List.length_singleton] at hroom
      exact hcut.lt_reach hs h hformed hbegun (by omega) (by omega) hstored

/-- **What a state owes is what the whole history costs**, up to some `-0.0` at the end. -/
theorem backoffsFrom_eq {matched : Nat} (hpos : 0 < matched) (hle : matched ≤ s.length + 1) :
    ∃ dropped, b.backoffsFrom history matched = s.owing matched ++ dropped ∧
      ∀ x ∈ dropped, x = .negZero := by
  have hlt := hs.length_lt
  have hlen := hs.length_le
  -- the lengths up to that of the state are all stored, and are what it owes
  have howing : s.owing matched = (List.range' matched (s.length + 1 - matched)).map fun length =>
      b.storedBackoff (history.rtake length) := by
    rw [State.owing, hs.backoffs, ← List.map_drop, List.drop_range']
    congr 2 <;> omega
  have hsplit : List.range' matched (b.order - matched) =
      List.range' matched (s.length + 1 - matched) ++
        List.range' (s.length + 1) (b.order - 1 - s.length) := by
    have hmid : s.length + 1 = matched + 1 * (s.length + 1 - matched) := by omega
    have hall : b.order - matched = s.length + 1 - matched + (b.order - 1 - s.length) := by omega
    rw [hall, ← List.range'_append, ← hmid]
  have hkept : ∀ length ∈ List.range' matched (s.length + 1 - matched),
      length ≤ history.length ∧ b.Stored (history.rtake length) := by
    intro length hmem
    rw [List.mem_range'_1] at hmem
    exact ⟨by omega, hs.stored length (by omega) (by omega)⟩
  rw [backoffsFrom, hsplit, List.filter_append, List.map_append, howing,
    List.filter_eq_self.2 fun length hmem => decide_eq_true (hkept length hmem)]
  refine ⟨_, rfl, ?_⟩
  -- the longer ones were cut off, so they have no extension
  intro x hx
  obtain ⟨length, hmem, rfl⟩ := List.mem_map.1 hx
  obtain ⟨hrange, hstored⟩ := List.mem_filter.1 hmem
  rw [List.mem_range'_1] at hrange
  obtain ⟨hle, hstored⟩ := of_decide_eq_true hstored
  have hext := hcut length (by omega) (by omega) hle hstored
  simpa [hasExtension] using hext

end Plain

/-- A sum is left as it is by any number of `-0.0`. -/
theorem sum_append_negZero (terms : List Single) {dropped : List Single}
    (h : ∀ x ∈ dropped, x = .negZero) :
    (terms ++ dropped).foldl (· + ·) .zero = terms.foldl (· + ·) Single.zero := by
  have hcomputed : ∃ v, terms.foldl (· + ·) Single.zero = .ofValue v := by
    induction terms using List.reverseRecOn with
    | nil => exact ⟨Single.zero.value, by rfl⟩
    | append_singleton terms x _ => exact ⟨_, List.foldl_concat ..⟩
  obtain ⟨v, hv⟩ := hcomputed
  rw [List.foldl_append, hv]
  induction dropped with
  | nil => rfl
  | cons x dropped ih =>
    rw [List.forall_mem_cons] at h
    rw [List.foldl_cons, h.1, Single.ofValue_add_negZero]
    exact ih h.2

/-- **Scoring in steps is plain backoff scoring.** Take a model that was built, of n-grams with all
their beginnings, and score words after the beginning of a sentence or after no context, so that no
key of an n-gram that was not collected is mistaken for that of another. Then at every word the
match is the longest stored n-gram that ends the history, its probability is the one stored for it,
and the backoffs that are added, in increasing length, are those that the whole history costs,
without some `-0.0` at the end. So the score is the plain one. -/
theorem fullScore_plain {settings : TableSettings} (hbuild : b.build settings = .ok m)
    (hbegun : b.PrefixClosed) {start : List Word} {first : State}
    (hstart : start = [b.vocabulary.beginSentence] ∧ first = m.beginState ∨
      start = [] ∧ first = .empty)
    {before : List Word} (hwords : ∀ w ∈ before ++ [word], w < b.vocabulary.bound)
    (hclear : ∀ g, g <:+: start ++ before ++ [word] → 2 ≤ g.length → b.Clear g) :
    ∃ last walk score next g dropped,
      m.stateAfter first before = .ok last ∧
      Walk.idle.scoreWord m.store last.recent word = .ok walk ∧
      m.fullScore last word = .ok (score, next) ∧
      b.Longest (start ++ before ++ [word]) g ∧ score.matched = g.length ∧
      walk.score.prob = b.storedProb g ∧
      b.backoffsFrom (start ++ before) g.length = last.owing g.length ++ dropped ∧
      (∀ x ∈ dropped, x = .negZero) ∧
      score.prob = walk.score.prob + (last.owing g.length).foldl (· + ·) .zero ∧
      score.prob = b.plainProb (start ++ before) g := by
  obtain ⟨haccepted, h⟩ := built_of_build hbuild
  have hformed := haccepted.wellFormed
  rw [List.forall_mem_append, List.forall_mem_singleton] at hwords
  obtain ⟨hbefore, hword⟩ := hwords
  have hparts : ∀ g, g <:+: start ++ before → 2 ≤ g.length → b.Clear g := fun g hg =>
    hclear g (hg.trans (List.prefix_append _ _).isInfix)
  -- the state at the start follows the start, and nothing is cut off it
  obtain ⟨hfirst, hfirstCut⟩ : b.Follows start first ∧ b.Cut start first := by
    rcases hstart with ⟨rfl, rfl⟩ | ⟨rfl, rfl⟩
    · exact ⟨follows_beginState h hformed, cut_beginState h⟩
    · exact ⟨follows_empty hformed [], cut_of_length_le (Nat.le_refl _)⟩
  have hlast := hfirst.follows_after h hformed hbefore hparts
  have hcut := cut_after h hformed hbegun hfirst hfirstCut hbefore hparts
  have hsuffix : ∀ g, g <:+ start ++ before ++ [word] → 2 ≤ g.length → b.Clear g := fun g hg =>
    hclear g hg.isInfix
  -- what is scored behind it, and what that is in terms of the history
  obtain ⟨walk, hwalk, hfound, -⟩ := m.scoreWord_eq (m.after first before) (h.vocabulary ▸ hword)
  obtain ⟨hmatched, hprob⟩ := hlast.found_eq h hword hsuffix
  have hlen := hlast.length_rtake_reach word h
  obtain ⟨dropped, hcost, hzero⟩ := backoffsFrom_eq hlast hcut (b.reach_pos _ word)
    (hlast.reach_le word h)
  refine ⟨_, walk, _, _, (start ++ before ++ [word]).rtake _, dropped,
    m.stateAfter_eq (hfirst.fits hformed) (h.vocabulary ▸ hbefore), hwalk,
    m.fullScore_eq (hlast.fits hformed) (h.vocabulary ▸ hword),
    longest_rtake hlast hcut h hformed hbegun, hmatched.trans hlen.symm,
    (congrArg Score.prob hfound).trans hprob, ?_, hzero, ?_, ?_⟩
  · rw [hlen]
    exact hcost
  · rw [hlen, hfound, ← hmatched]
    rfl
  · rw [plainProb, hlen]
    rw [hcost, sum_append_negZero _ hzero, ← hprob, ← hmatched]
    rfl

/-- N-grams of up to three words, with all their beginnings. -/
def sampleGrams : List (Gram × GivenWeights) :=
  [([1], ⟨⟨0xc0000000⟩, ⟨0xbf000000⟩, ⟨0xc0000000⟩⟩), ([3], ⟨⟨0xbf800000⟩, .zero, ⟨0xbf800000⟩⟩),
    ([1, 3], ⟨⟨0xbf800000⟩, .zero, ⟨0xbf800000⟩⟩),
    ([3, 4], ⟨⟨0xbf000000⟩, ⟨0xbe800000⟩, ⟨0xbf000000⟩⟩),
    ([1, 3, 4], ⟨⟨0xbe800000⟩, .zero, ⟨0xbe800000⟩⟩)]

/-- A word that was never seen behind two that were: the match is the word alone. -/
theorem fullScore_plain_unseen :
    ∃ m last score next g, (listed 3 { bound := 6 } sampleGrams).build {} = .ok m ∧
      m.stateAfter m.beginState [3, 4] = .ok last ∧ m.fullScore last 5 = .ok (score, next) ∧
      (listed 3 { bound := 6 } sampleGrams).Longest [1, 3, 4, 5] g ∧ score.matched = g.length ∧
      score.prob = (listed 3 { bound := 6 } sampleGrams).plainProb [1, 3, 4] g := by
  have haccepted : (listed 3 { bound := 6 } sampleGrams).Accepted {} :=
    accepted_listed (by decide +kernel)
  obtain ⟨m, hm⟩ := build_eq_ok_iff.2 haccepted
  have hlen : ∀ e ∈ sampleGrams, 0 < e.1.length ∧ e.1.length ≤ maxOrder := by decide
  have hbegun : (listed 3 { bound := 6 } sampleGrams).PrefixClosed := by
    intro g hg hthree
    rw [mem_listed hlen] at hg ⊢
    revert g
    decide
  have hclear : ∀ g, g <:+: [1] ++ [3, 4] ++ [5] → (listed 3 { bound := 6 } sampleGrams).Clear g :=
    fun g => clear_listed hlen (by decide +kernel)
  have hwords : ∀ w ∈ [3, 4] ++ [5],
      w < (listed 3 { bound := 6 } sampleGrams).vocabulary.bound := by
    show ∀ w ∈ [3, 4] ++ [5], w < (6 : Word)
    simp
  obtain ⟨last, -, score, next, g, -, hlast, -, hfull, hlongest, hmatched, -, -, -, -, hplain⟩ :=
    fullScore_plain hm hbegun (Or.inl ⟨rfl, rfl⟩) hwords fun g hg _ => hclear g hg
  exact ⟨m, last, score, next, g, hm, hlast, hfull, hlongest, hmatched, hplain⟩

end Builder

end Ngram
