import Ngram.Proofs.Model.Listed
import Ngram.Proofs.Score.History

/-!
# Which n-grams a model gives back

A collection is checked for suffixes, so that no climb meets a gap. But a climb also needs the words
before, and the state that hands them on is cut behind a word whose n-gram is not stored. So an
n-gram is found again, by scoring its own words, exactly if all its beginnings are stored too.

> `retrieved_of_beginnings`: if they are, scoring ends with the n-gram and its own probability.
> `beginnings_of_matched`: if scoring ends with a match of all words, they are.
> `retrieved_iff`: both, for the models of all collections that are accepted.
> `not_retrieved_gapGrams`: an n-gram that was accepted, and is not found.
-/

namespace Ngram

theorem rtake_length (l : List Word) : l.rtake l.length = l := by
  rw [List.rtake, Nat.sub_self, List.drop_zero]

namespace Model

theorem length_after_le (m : Model) (state : State) (words : List Word) :
    (m.after state words).length ≤ state.length + words.length := by
  induction words generalizing state with
  | nil => exact Nat.le_refl _
  | cons word words ih =>
    have hrest := ih (m.next state word)
    have hnext := m.length_next_le_succ state word
    rw [List.length_cons]
    exact Nat.le_trans hrest (by omega)

end Model

namespace Builder

variable {b : Builder} {m : Model} {before : List Word} {word : Word}

/-- Scoring the words of an n-gram one after another, from no context on, ends with a match of all
of them and with its own probability, before any backoff. -/
def Retrieved (b : Builder) (m : Model) (before : List Word) (word : Word) : Prop :=
  ∃ last walk score next, m.stateAfter .empty before = .ok last ∧
    Walk.idle.scoreWord m.store last.recent word = .ok walk ∧
    m.fullScore last word = .ok (score, next) ∧ score.matched = (before ++ [word]).length ∧
    walk.score.prob = b.storedProb (before ++ [word])

/-- All beginnings of some words are stored, and the words themselves. -/
def Beginnings (b : Builder) (words : List Word) : Prop :=
  ∀ front, front <+: words → front ≠ [] → b.Stored front

theorem Beginnings.clear {words : List Word} (h : b.Beginnings words) (hformed : b.WellFormed)
    (g : Gram) (hg : g <:+: words) (hlen : 2 ≤ g.length) : b.Clear g := by
  obtain ⟨front, hsuffix, hfront⟩ := List.infix_iff_suffix_prefix.1 hg
  obtain ⟨more, rfl⟩ := hsuffix
  refine clear_of_mem (hformed.mem_of_append ((h _ hfront ?_).resolve_left ?_) hlen)
  · intro hnil
    rw [(List.append_eq_nil_iff.1 hnil).2] at hlen
    cases hlen
  · rw [List.length_append]
    omega

theorem Beginnings.shorten {words front : List Word} (h : b.Beginnings words)
    (hfront : front <+: words) : b.Beginnings front :=
  fun g hg => h g (hg.trans hfront)

/-- From no context on, words whose beginnings are all stored leave a state that follows them. -/
theorem Beginnings.follows (h : b.Beginnings before) (hbuilt : b.Built m)
    (hformed : b.WellFormed) (hwords : ∀ w ∈ before, w < b.vocabulary.bound) :
    b.Follows before (m.after .empty before) := by
  have hafter := (follows_empty hformed []).follows_after hbuilt hformed hwords fun g hg =>
    h.clear hformed g hg
  exact hafter

/-- Where all beginnings are stored, the match of the last word reaches back to the first, if the
state does. -/
theorem Beginnings.lt_reach (h : b.Beginnings (before ++ [word])) (hbuilt : b.Built m)
    (hformed : b.WellFormed) (hwords : ∀ w ∈ before, w < b.vocabulary.bound)
    (hlen : (m.after .empty before).length = before.length) :
    before.length < b.reach (m.context (m.after .empty before)) word := by
  have hfollows := (h.shorten (List.prefix_append _ _)).follows hbuilt hformed hwords
  rw [hfollows.lt_reach_iff word hbuilt hformed, hlen]
  refine ⟨Nat.le_refl _, ?_⟩
  rw [List.rtake_concat_succ, rtake_length]
  exact h _ (List.prefix_refl _) (by simp)

/-- Where all beginnings are stored, the state keeps all words but the last. -/
theorem Beginnings.length_after (h : b.Beginnings (before ++ [word])) (hbuilt : b.Built m)
    (hformed : b.WellFormed) (hwords : ∀ w ∈ before, w < b.vocabulary.bound) :
    (m.after .empty before).length = before.length := by
  induction before using List.reverseRecOn generalizing word with
  | nil => rfl
  | append_singleton before w ih =>
    have hfront : b.Beginnings (before ++ [w]) := h.shorten (List.prefix_append _ _)
    rw [List.forall_mem_append, List.forall_mem_singleton] at hwords
    have hlen := ih hfront hwords.1
    have hreach := hfront.lt_reach hbuilt hformed hwords.1 hlen
    have hfollows := (hfront.shorten (List.prefix_append _ _)).follows hbuilt hformed hwords.1
    -- the n-gram with the last word begins with the one before it, so that one is kept
    have hmem : before ++ [w] ++ [word] ∈ b.grams :=
      (h _ (List.prefix_refl _) (by simp)).resolve_left (by simp)
    have hroom := hformed.length_le _ hmem
    have hext := hasExtension_of_begun hmem (by simp) List.dropLast_concat
    simp only [List.length_append, List.length_singleton] at hroom
    have hkept : before.length < (m.next (m.after .empty before) w).length := by
      refine hfollows.lt_length_next hbuilt hwords.2 (fun g hg => hfront.clear hformed g hg.isInfix)
        hreach hroom ?_
      rw [List.rtake_concat_succ, rtake_length]
      exact hext
    have hafter : m.after .empty (before ++ [w]) = m.next (m.after .empty before) w :=
      List.foldl_concat ..
    have hgrown := m.length_next_le_succ (m.after .empty before) w
    rw [hafter, List.length_append, List.length_singleton]
    omega

/-- **What has all its beginnings is found.** -/
theorem retrieved_of_beginnings (h : b.Beginnings (before ++ [word])) (hbuilt : b.Built m)
    (hformed : b.WellFormed) (hwords : ∀ w ∈ before ++ [word], w < b.vocabulary.bound) :
    b.Retrieved m before word := by
  rw [List.forall_mem_append, List.forall_mem_singleton] at hwords
  obtain ⟨hbefore, hword⟩ := hwords
  have hfollows := (h.shorten (List.prefix_append _ _)).follows hbuilt hformed hbefore
  have hlen := h.length_after hbuilt hformed hbefore
  have hlow := h.lt_reach hbuilt hformed hbefore hlen
  have hhigh := hfollows.reach_le word hbuilt
  have hreach : b.reach (m.context (m.after .empty before)) word = before.length + 1 := by omega
  obtain ⟨walk, hwalk, hfound, -⟩ := m.scoreWord_eq (m.after .empty before)
    (hbuilt.vocabulary ▸ hword)
  obtain ⟨hmatched, hprob⟩ := hfollows.found_eq hbuilt hword fun g hg =>
    h.clear hformed g hg.isInfix
  rw [hreach, List.rtake_concat_succ, rtake_length] at hprob
  refine ⟨_, walk, _, _, m.stateAfter_eq (Nat.zero_le _) (hbuilt.vocabulary ▸ hbefore), hwalk,
    m.fullScore_eq (hfollows.fits hformed) (hbuilt.vocabulary ▸ hword), ?_,
    (congrArg Score.prob hfound).trans hprob⟩
  rw [List.length_append, List.length_singleton]
  exact hmatched.trans hreach

/-- **What is found has all its beginnings**, if no key is mistaken for that of another n-gram. A
match of all words is enough for it. -/
theorem beginnings_of_matched (hbuilt : b.Built m) (hformed : b.WellFormed)
    (hwords : ∀ w ∈ before ++ [word], w < b.vocabulary.bound)
    (hclear : ∀ g, g <:+: before ++ [word] → 2 ≤ g.length → b.Clear g) {last next : State}
    {score : Score} (hafter : m.stateAfter .empty before = .ok last)
    (hfull : m.fullScore last word = .ok (score, next))
    (hmatched : score.matched = (before ++ [word]).length) : b.Beginnings (before ++ [word]) := by
  rw [List.forall_mem_append, List.forall_mem_singleton] at hwords
  obtain ⟨hbefore, hword⟩ := hwords
  have hfollows {front : List Word} (hfront : front <+: before) :
      b.Follows front (m.after .empty front) :=
    (follows_empty hformed []).follows_after hbuilt hformed
      (fun w hw => hbefore w (hfront.subset hw))
      fun g hg => hclear g (hg.trans (hfront.trans (List.prefix_append _ _)).isInfix)
  have hlast := hfollows (List.prefix_refl _)
  rw [m.stateAfter_eq (Nat.zero_le _) (hbuilt.vocabulary ▸ hbefore)] at hafter
  cases hafter
  rw [m.fullScore_eq (hlast.fits hformed) (hbuilt.vocabulary ▸ hword)] at hfull
  cases hfull
  have hreach : b.reach (m.context (m.after .empty before)) word = before.length + 1 := by
    rw [← (hlast.found_eq hbuilt hword fun g hg => hclear g hg.isInfix).1, ← List.length_singleton,
      ← List.length_append]
    exact hmatched
  have hlen := hlast.reach_le word hbuilt
  intro front hfront hne
  rcases List.prefix_concat_iff.1 hfront with rfl | ⟨more, rfl⟩
  · have := ((hlast.lt_reach_iff word hbuilt hformed (i := before.length)).1 (by omega)).2
    rwa [List.rtake_concat_succ, rtake_length] at this
  · -- a state that is as long as the history was so after every word
    have hgrown := m.length_after_le (m.after .empty front) more
    rw [← Model.after_append] at hgrown
    rw [List.length_append] at hreach
    have := (hfollows (List.prefix_append _ _)).stored front.length
      (List.length_pos_iff.2 hne) (by omega)
    rwa [rtake_length] at this

/-- **Which n-grams are given back.** With a model that was built, scoring the words of an n-gram
one after another, from no context on, ends with a match of all of them and their own probability if
all its beginnings are stored; and only then, if no key is mistaken for that of another. -/
theorem retrieved_iff {settings : TableSettings} (hbuild : b.build settings = .ok m)
    (hwords : ∀ w ∈ before ++ [word], w < b.vocabulary.bound) :
    (b.Beginnings (before ++ [word]) → b.Retrieved m before word) ∧
      ((∀ g, g <:+: before ++ [word] → 2 ≤ g.length → b.Clear g) →
        b.Retrieved m before word → b.Beginnings (before ++ [word])) := by
  obtain ⟨haccepted, hbuilt⟩ := built_of_build hbuild
  have hformed := haccepted.wellFormed
  refine ⟨fun h => retrieved_of_beginnings h hbuilt hformed hwords, ?_⟩
  intro hclear h
  obtain ⟨last, -, score, next, hafter, -, hfull, hmatched, -⟩ := h
  exact beginnings_of_matched hbuilt hformed hwords hclear hafter hfull hmatched

/-- An n-gram of three words with its suffix, but without its beginning. -/
def gapGrams : List (Gram × GivenWeights) :=
  [([4, 5], ⟨⟨0xbf000000⟩, .zero, ⟨0xbf000000⟩⟩), ([3, 4, 5], ⟨⟨0xbe800000⟩, .zero, ⟨0xbe800000⟩⟩)]

/-- The same with its beginning. -/
def closedGrams : List (Gram × GivenWeights) :=
  ([3, 4], ⟨⟨0xbf800000⟩, .zero, ⟨0xbf800000⟩⟩) :: gapGrams

/-- With its beginning, the n-gram is given back. -/
theorem retrieved_closedGrams :
    ∃ m, (listed 3 { bound := 6 } closedGrams).build {} = .ok m ∧
      (listed 3 { bound := 6 } closedGrams).Retrieved m [3, 4] 5 := by
  have haccepted : (listed 3 { bound := 6 } closedGrams).Accepted {} :=
    accepted_listed (by decide +kernel)
  obtain ⟨m, hm⟩ := build_eq_ok_iff.2 haccepted
  have hwords : ∀ w ∈ [3, 4] ++ [5],
      w < (listed 3 { bound := 6 } closedGrams).vocabulary.bound := by
    show ∀ w ∈ [3, 4] ++ [5], w < (6 : Word)
    simp
  refine ⟨m, hm, (retrieved_iff hm hwords).1 ?_⟩
  intro front hfront hne
  have hall : ∀ g ∈ ([3, 4] ++ [5] : Gram).inits, g ≠ [] →
      g.length = 1 ∨ g ∈ closedGrams.map Prod.fst := by decide
  rw [Stored, mem_listed (by decide)]
  exact hall front ((List.mem_inits _ _).2 hfront) hne

/-- Without its beginning, the n-gram is accepted, and is not matched by its own words. -/
theorem not_retrieved_gapGrams :
    ∃ m last score next, (listed 3 { bound := 6 } gapGrams).build {} = .ok m ∧
      [3, 4, 5] ∈ (listed 3 { bound := 6 } gapGrams).grams ∧
      m.stateAfter .empty [3, 4] = .ok last ∧ m.fullScore last 5 = .ok (score, next) ∧
      score.matched ≠ 3 := by
  have haccepted : (listed 3 { bound := 6 } gapGrams).Accepted {} :=
    accepted_listed (by decide +kernel)
  obtain ⟨m, hm⟩ := build_eq_ok_iff.2 haccepted
  have hbuilt := (built_of_build hm).2
  have hlen : ∀ e ∈ gapGrams, 0 < e.1.length ∧ e.1.length ≤ maxOrder := by decide
  have hwords : ∀ w ∈ [3, 4] ++ [5], w < (listed 3 { bound := 6 } gapGrams).vocabulary.bound := by
    show ∀ w ∈ [3, 4] ++ [5], w < (6 : Word)
    simp
  have hmodel := hwords
  rw [← hbuilt.vocabulary, List.forall_mem_append, List.forall_mem_singleton] at hmodel
  have hafter : m.stateAfter .empty [3, 4] = .ok _ := m.stateAfter_eq (Nat.zero_le _) hmodel.1
  have hfull := m.fullScore_eq (m.fits_next (m.next .empty 3) 4) hmodel.2
  refine ⟨m, _, _, _, hm, (mem_listed hlen).2 (by decide), hafter, hfull, ?_⟩
  intro hmatched
  have hbegin := beginnings_of_matched hbuilt haccepted.wellFormed hwords
    (fun g hg _ => clear_listed hlen (by decide +kernel) hg) hafter hfull hmatched
  have hgap := hbegin [3, 4] ⟨[5], rfl⟩ (by decide)
  rw [Stored, mem_listed hlen] at hgap
  revert hgap
  decide

end Builder

end Ngram
