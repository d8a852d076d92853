import Mathlib.Data.List.Chain
import Ngram.Proofs.Corpus.Parts
import Ngram.Proofs.Number.Division
import Ngram.Proofs.Schedule.Sentences

/-!
# Parts of about the same length

A cut is looked for from a fraction of the corpus on, so it is found within one sentence behind it.
This bounds the parts from above: the fractions lie `⌈n / parts⌉` apart at most, and the end of a
part can be no more than a sentence further on.

> `exists_cut`: a cut is found less than one sentence behind its target.
> `spansFrom_balanced`: parts whose cuts lie behind their fractions so far are no longer than that.
> `corpusSpans_balanced`: the parts cover the corpus, are cut off behind ends of sentences, and are
> balanced.
> `spansFrom_wrapped`: a corpus of which one part is half of its words, though its sentences are
> single words and the average part holds two.

That the parts are balanced takes fractions that 64 bits are enough for: `product_lt` says which
these are, and `spansFrom?_eq` that no product overflows then. The cuts are as good without it.
-/

namespace Ngram

/-- The length of the longest of some sentences. -/
def longest (sentences : List (List Word)) : Nat := (sentences.map List.length).foldr max 0

theorem longest_replicate (sentence : List Word) {n : Nat} (hn : n ≠ 0) :
    longest (List.replicate n sentence) = sentence.length := by
  induction n with
  | zero => exact absurd rfl hn
  | succ n ih =>
    show max sentence.length (longest (List.replicate n sentence)) = _
    by_cases hzero : n = 0
    · subst hzero
      exact Nat.max_zero _
    · rw [ih hzero, Nat.max_self]

/-- A corpus is taken apart as its sentences. -/
structure IsMadeOf (words : List Word) (eos : Word) (sentences : List (List Word)) : Prop where
  flatten : sentences.flatten = words
  ends : ∀ sentence ∈ sentences, EndsOnce eos sentence

section IsMadeOf

variable {words : List Word} {eos : Word} {sentences : List (List Word)}

/-- A corpus that ends with the end of a sentence is made of sentences. -/
theorem exists_isMadeOf (h : words.getLast? = some eos) :
    ∃ sentences, IsMadeOf words eos sentences := by
  induction words with
  | nil => cases h
  | cons word words ih =>
    by_cases hne : words = []
    · subst hne
      obtain rfl : word = eos := by simpa using h
      exact ⟨[[word]], rfl, by simpa using ⟨[], rfl, by simp⟩⟩
    · rw [List.getLast?_cons_of_ne_nil hne] at h
      obtain ⟨sentences, hflatten, hends⟩ := ih h
      by_cases hword : word = eos
      · subst hword
        refine ⟨[word] :: sentences, by rw [List.flatten_cons, hflatten]; rfl, ?_⟩
        exact List.forall_mem_cons.2 ⟨⟨[], rfl, by simp⟩, hends⟩
      · -- the word belongs to the first of the sentences behind it
        cases sentences with
        | nil => exact absurd hflatten.symm hne
        | cons s sentences =>
          rw [List.forall_mem_cons] at hends
          refine ⟨(word :: s) :: sentences, by rw [← hflatten]; rfl, ?_⟩
          exact List.forall_mem_cons.2 ⟨hends.1.cons hword, hends.2⟩

/-- From every word on, the end of a sentence comes within the longest of them. -/
theorem IsMadeOf.exists_end (h : IsMadeOf words eos sentences) {n : Nat} (hn : n < words.length) :
    ∃ p < longest sentences, words[n + p]? = some eos := by
  obtain ⟨rfl, hends⟩ := h
  induction sentences generalizing n with
  | nil => cases hn
  | cons s sentences ih =>
    rw [List.forall_mem_cons] at hends
    rw [List.flatten_cons, List.length_append] at hn
    show ∃ p < max s.length (longest sentences), (s ++ sentences.flatten)[n + p]? = some eos
    by_cases hs : n < s.length
    · refine ⟨s.length - 1 - n, by omega, ?_⟩
      rw [show n + (s.length - 1 - n) = s.length - 1 by omega,
        List.getElem?_append_left (by omega), ← List.getLast?_eq_getElem?]
      obtain ⟨front, rfl, -⟩ := hends.1
      exact List.getLast?_concat
    · obtain ⟨p, hp, heos⟩ := ih hends.2 (n := n - s.length) (by omega)
      refine ⟨p, by omega, ?_⟩
      rw [List.getElem?_append_right (by omega), ← heos]
      congr 1
      omega

end IsMadeOf

namespace Cuts

variable {words : List Word} {eos : Word} {start : Nat} {spans : List Span}

theorem start_head (h : Cuts words eos start spans) :
    spans.head?.map Span.start = some start := by
  cases h <;> rfl

theorem stop_getLast (h : Cuts words eos start spans) :
    spans.getLast?.map Span.stop = some words.length := by
  induction h with
  | rest => rfl
  | cut _ _ hmore ih => rw [List.getLast?_cons_of_ne_nil hmore.ne_nil, ih]

theorem start_lt_stop (h : Cuts words eos start spans) :
    ∀ span ∈ spans, span.start < span.stop := by
  induction h with
  | rest hlt => simpa using hlt
  | cut hlt _ _ ih => exact List.forall_mem_cons.2 ⟨hlt, ih⟩

/-- Each part begins where the one in front of it stops. -/
theorem isChain (h : Cuts words eos start spans) :
    spans.IsChain fun span next => span.stop = next.start := by
  induction h with
  | rest => exact .singleton _
  | cut _ _ hmore ih =>
    cases hmore with
    | rest => exact .cons_cons rfl ih
    | cut => exact .cons_cons rfl ih

/-- All parts but the last are cut off behind the end of a sentence. -/
theorem stop_dropLast (h : Cuts words eos start spans) :
    ∀ span ∈ spans.dropLast, words[span.stop - 1]? = some eos := by
  induction h with
  | rest => simp
  | cut _ hstop hmore ih =>
    rw [List.dropLast_cons_of_ne_nil hmore.ne_nil]
    exact List.forall_mem_cons.2 ⟨hstop, ih⟩

/-- So is the last, if the corpus ends so. -/
theorem stop_ends (h : Cuts words eos start spans) (hlast : words.getLast? = some eos) :
    ∀ span ∈ spans, words[span.stop - 1]? = some eos := by
  induction h with
  | rest =>
    rw [List.getLast?_eq_getElem?] at hlast
    simpa using hlast
  | cut _ hstop _ ih => exact List.forall_mem_cons.2 ⟨hstop, ih⟩

end Cuts

namespace Partition

variable {words : List Word} {eos : Word} {sentences : List (List Word)}

/-- **A cut is found less than one sentence behind its target.** -/
theorem exists_cut (h : IsMadeOf words eos sentences) {target : Nat} (hpos : 0 < target)
    (hle : target ≤ words.length) :
    ∃ stop, cut? words eos target = some stop ∧ stop < target + longest sentences := by
  obtain ⟨p, hp, heos⟩ := h.exists_end (n := target - 1) (by omega)
  have hdrop : (words.drop (target - 1))[p]? = some eos := by rw [List.getElem?_drop, heos]
  obtain ⟨hlt, hget⟩ := List.getElem?_eq_some_iff.1 hdrop
  cases hfind : (words.drop (target - 1)).findIdx? (· == eos) with
  | none =>
    have hnot := List.findIdx?_eq_none_iff.1 hfind _ (List.mem_of_getElem? hdrop)
    simp at hnot
  | some q =>
    obtain ⟨_, _, hfirst⟩ := List.findIdx?_eq_some_iff_getElem.1 hfind
    -- the end that is found is the first one
    have hqp : q ≤ p := Nat.le_of_not_lt fun hlt' => hfirst p hlt' (by simpa using hget)
    exact ⟨target + q, by rw [cut?, hfind]; rfl, by omega⟩

/-- A fraction lies no further behind the one in front of it than the parts are long on average,
rounded up. -/
theorem fraction_succ_le (n k : Nat) {parts : Nat} (hparts : 0 < parts) :
    n * (k + 1) / parts ≤ n * k / parts + (n + parts - 1) / parts := by
  have hceil : n ≤ (n + parts - 1) / parts * parts := by
    have := Nat.lt_div_mul_add (a := n + parts - 1) hparts
    omega
  calc n * (k + 1) / parts = (n * k + n) / parts := by rw [Nat.mul_succ]
    _ ≤ (n * k + (n + parts - 1) / parts * parts) / parts :=
      Nat.div_le_div_right (Nat.add_le_add_left hceil _)
    _ = n * k / parts + (n + parts - 1) / parts := Nat.add_mul_div_right _ _ hparts

/-- The last part is no longer than that. -/
theorem rest_balanced {bound start : Nat} (h : words.length - start ≤ bound) :
    ∀ span ∈ rest words.length start, span.stop - span.start ≤ bound := by
  unfold rest
  split
  next => simpa using h
  next => simp

/-- The number of a cut is less than that of the parts, and no more than that of the words. So if all
words times the lesser of these bounds fit, the products of all cuts do. -/
theorem product_lt {n parts i : Nat} (hbits : n * min (parts - 1) n < 2 ^ 64) (hparts : i < parts)
    (hn : i ≤ n) : n * i < 2 ^ 64 :=
  Nat.lt_of_le_of_lt (Nat.mul_le_mul_left _ (by omega)) hbits

/-- **Parts are balanced** whose cuts lie behind their fractions so far. The next cut is number
`k + 1`, and the induction is on the cuts that are left. -/
theorem spansFrom_balanced (h : IsMadeOf words eos sentences) {parts start k left : Nat}
    (hbits : words.length * min (parts - 1) words.length < 2 ^ 64)
    (hleft : k + 1 + left = parts) (hk : k ≤ start) (hstart : start < words.length)
    (hnear : words.length * k / parts ≤ start) :
    ∀ span ∈ spansFrom words eos words.length parts start (k + 1) left,
      span.stop - span.start ≤ (words.length + parts - 1) / parts + longest sentences - 1 := by
  have hparts : 0 < parts := by omega
  have hstep := fraction_succ_le words.length k hparts
  have hceil : 0 < (words.length + parts - 1) / parts := Nat.div_pos (by omega) hparts
  have hlongest : 0 < longest sentences := by
    obtain ⟨p, hp, -⟩ := h.exists_end hstart
    omega
  induction left generalizing start k with
  | zero =>
    -- all cuts are made, and the last fraction is the whole corpus
    refine rest_balanced ?_
    obtain rfl : k + 1 = parts := hleft
    rw [Nat.mul_div_cancel _ hparts] at hstep
    omega
  | succ left ih =>
    have hproduct : words.length * (k + 1) % 2 ^ 64 = words.length * (k + 1) :=
      Nat.mod_eq_of_lt (product_lt hbits (by omega) (by omega))
    -- the target lies behind the cut in front of it, and within the corpus
    obtain ⟨target, htarget⟩ :
        ∃ target, target = max (words.length * (k + 1) / parts) (start + 1) := ⟨_, rfl⟩
    have hfraction : words.length * (k + 1) / parts ≤ words.length := by
      apply Nat.div_le_of_le_mul
      rw [Nat.mul_comm parts]
      exact Nat.mul_le_mul_left _ (by omega)
    have hle : target ≤ words.length := htarget ▸ Nat.max_le.2 ⟨hfraction, hstart⟩
    obtain ⟨stop, hcut, hstop⟩ := exists_cut h (by omega : 0 < target) hle
    have hfront : target ≤ stop := (cut?_eq_some (by omega) hcut).1
    have hlength : stop - start ≤
        (words.length + parts - 1) / parts + longest sentences - 1 := by omega
    simp only [spansFrom, hproduct, ← htarget, if_neg (Nat.not_lt_of_le hle), hcut]
    by_cases hend : words.length ≤ stop
    · rw [if_pos hend]
      exact rest_balanced (by omega)
    · rw [if_neg hend]
      refine List.forall_mem_cons.2 ⟨hlength, ?_⟩
      exact ih (by omega) (by omega) (by omega) (by omega) (fraction_succ_le _ _ hparts)

/-- The parts from `start` on with each product checked: nothing if one does not fit into 64
bits. -/
def spansFrom? (words : List Word) (eos : Word) (length parts start i : Nat) :
    Nat → Option (List Span)
  | 0 => some (rest length start)
  | left + 1 => do
    let product ← Reciprocal.fit? 64 (length * i)
    let target := max (product / parts) (start + 1)
    if length < target then some (rest length start)
    else match cut? words eos target with
      | none => some (rest length start)
      | some stop =>
        if length ≤ stop then some (rest length start)
        else (spansFrom? words eos length parts stop (i + 1) left).map (⟨start, stop⟩ :: ·)

/-- **No product overflows** if the greatest one does not: no part is empty, so the cuts cannot
outnumber the words. -/
theorem spansFrom?_eq {parts start i left : Nat}
    (hbits : words.length * min (parts - 1) words.length < 2 ^ 64) (hleft : i + left = parts)
    (hi : i ≤ start + 1) (hstart : start < words.length) :
    spansFrom? words eos words.length parts start i left =
      some (spansFrom words eos words.length parts start i left) := by
  induction left generalizing start i with
  | zero => rfl
  | succ left ih =>
    have hfits : words.length * i < 2 ^ 64 := product_lt hbits (by omega) (by omega)
    simp only [spansFrom?, spansFrom, Reciprocal.fit?_of_lt hfits, Nat.mod_eq_of_lt hfits, bind,
      Option.bind_some]
    by_cases htarget : words.length < max (words.length * i / parts) (start + 1)
    · rw [if_pos htarget, if_pos htarget]
    · rw [if_neg htarget, if_neg htarget]
      cases hcut : cut? words eos (max (words.length * i / parts) (start + 1)) with
      | none => rfl
      | some stop =>
        have hfront := (cut?_eq_some (by omega) hcut).1
        dsimp only
        by_cases hend : words.length ≤ stop
        · rw [if_pos hend, if_pos hend]
        · rw [if_neg hend, if_neg hend, ih (by omega) (by omega) (by omega), Option.map_some]

/-! ### Products that wrap -/

section Wrapped

variable {n parts start i left : Nat}

/-- In a corpus of ends of sentences a cut is found at its target. -/
theorem cut?_replicate (eos : Word) {target : Nat} (hpos : 0 < target) (hle : target ≤ n) :
    cut? (List.replicate n eos) eos target = some target := by
  obtain ⟨m, hm⟩ : ∃ m, n - (target - 1) = m + 1 := ⟨n - target, by omega⟩
  rw [cut?, List.drop_replicate, hm, List.replicate_succ, List.findIdx?_cons, beq_self_eq_true,
    if_pos rfl]
  rfl

/-- So one more part is cut off there. -/
theorem spansFrom_replicate (eos : Word) {target : Nat}
    (htarget : max (n * i % 2 ^ 64 / parts) (start + 1) = target) (hlt : target < n) :
    spansFrom (List.replicate n eos) eos n parts start i (left + 1) =
      ⟨start, target⟩ :: spansFrom (List.replicate n eos) eos n parts target (i + 1) left := by
  simp only [spansFrom, htarget, cut?_replicate eos (by omega : 0 < target) (Nat.le_of_lt hlt)]
  rw [if_neg (by omega), if_neg (by omega)]

/-- Once a product has wrapped, each part is a single word, and the last one is what is left. -/
theorem exists_long_of_wrapped (eos : Word) (hn : n = 2 ^ 33) (hleft : i + left = 2 ^ 32)
    (hwrapped : 2 ^ 31 ≤ i) (hstart : start + 2 = 2 ^ 31 + i) :
    ∃ span ∈ spansFrom (List.replicate n eos) eos n (2 ^ 32) start i left,
      2 ^ 31 ≤ span.stop - span.start := by
  induction left generalizing start i with
  | zero =>
    rw [spansFrom, rest, if_pos (by omega)]
    refine ⟨_, List.mem_singleton_self _, ?_⟩
    show 2 ^ 31 ≤ n - start
    omega
  | succ left ih =>
    -- the fraction has fallen behind the cut in front of it
    have htarget : max (n * i % 2 ^ 64 / 2 ^ 32) (start + 1) = start + 1 := by omega
    rw [spansFrom_replicate eos htarget (by omega)]
    obtain ⟨span, hspan, hlong⟩ := ih (show i + 1 + left = 2 ^ 32 by omega) (by omega)
      (show start + 1 + 2 = 2 ^ 31 + (i + 1) by omega)
    exact ⟨span, List.mem_cons_of_mem _ hspan, hlong⟩

/-- **A product that wraps leaves a part of half of the words**, where each sentence is a single
word and two of them are the average part. -/
theorem spansFrom_wrapped (eos : Word) (hn : n = 2 ^ 33) (hleft : i + left = 2 ^ 32) (hpos : 0 < i)
    (hstart : start + 2 = 2 * i) (hi : i ≤ 2 ^ 31) :
    ∃ span ∈ spansFrom (List.replicate n eos) eos n (2 ^ 32) start i left,
      2 ^ 31 ≤ span.stop - span.start := by
  induction left generalizing start i with
  | zero => omega
  | succ left ih =>
    by_cases hlast : i = 2 ^ 31
    · exact exists_long_of_wrapped eos hn hleft (by omega) (by omega)
    · -- up to then the parts have two words
      have htarget : max (n * i % 2 ^ 64 / 2 ^ 32) (start + 1) = start + 2 := by
        subst hn
        omega
      rw [spansFrom_replicate eos htarget (by omega)]
      obtain ⟨span, hspan, hlong⟩ := ih (show i + 1 + left = 2 ^ 32 by omega) (by omega)
        (show start + 2 + 2 = 2 * (i + 1) by omega) (by omega)
      exact ⟨span, List.mem_cons_of_mem _ hspan, hlong⟩

end Wrapped

end Partition

/-- **A corpus is covered by its parts, cut off behind ends of sentences, and they are balanced.**
Where a list of them can be held, the parts are not empty, follow one another from the first word to
the last, and are no more than were asked for; an empty corpus has none. All but the last are cut
off behind the end of a sentence. If the corpus ends with one, so is the last. And if 64 bits are
enough for the products, no product is too large, and no part of such a corpus is longer than the
average, rounded up, and the longest sentence together, less one word. -/
theorem corpusSpans_balanced (words : List Word) (eos : Word) {parts : Nat} (hparts : 0 < parts)
    (hroom : parts * 16 ≤ maxBytes) :
    ∃ spans, corpusSpans? words eos parts = .ok spans ∧
      spans.length ≤ parts ∧ (spans = [] ↔ words = []) ∧
      (∀ span ∈ spans, span.start < span.stop) ∧
      (spans.IsChain fun span next => span.stop = next.start) ∧
      (words ≠ [] → spans.head?.map Span.start = some 0 ∧
        spans.getLast?.map Span.stop = some words.length) ∧
      (∀ span ∈ spans.dropLast, words[span.stop - 1]? = some eos) ∧
      (words.getLast? = some eos →
        (∀ span ∈ spans, words[span.stop - 1]? = some eos) ∧
        ∃ sentences, IsMadeOf words eos sentences) ∧
      (words.length * min (parts - 1) words.length < 2 ^ 64 →
        Partition.spansFrom? words eos words.length parts 0 1 (parts - 1) = some spans ∧
        ∀ sentences, IsMadeOf words eos sentences → ∀ span ∈ spans,
          span.stop - span.start ≤
            (words.length + parts - 1) / parts + longest sentences - 1) := by
  refine ⟨_, corpusSpans?_of_room hroom words eos, ?_⟩
  generalize hspans : corpusSpans words eos parts = spans
  have hlength : spans.length ≤ parts := by
    have hle := Partition.length_spansFrom_le words eos words.length parts 0 1 (parts - 1)
    rwa [Nat.sub_add_cancel hparts, ← corpusSpans, hspans] at hle
  by_cases hwords : words = []
  · subst hwords
    obtain ⟨hnil, hchecked⟩ : spans = [] ∧
        Partition.spansFrom? [] eos 0 parts 0 1 (parts - 1) = some [] := by
      rw [← hspans, corpusSpans, List.length_nil]
      cases parts - 1 with
      | zero => exact ⟨rfl, rfl⟩
      | succ left =>
        simp [Partition.spansFrom, Partition.spansFrom?, Partition.rest, Reciprocal.fit?]
    subst hnil
    exact ⟨hlength, by simp, by simp, .nil, by simp, by simp, by simp,
      fun _ => ⟨hchecked, by simp⟩⟩
  · have hpos : 0 < words.length := List.length_pos_iff.2 hwords
    have hcuts : Cuts words eos 0 spans := hspans ▸ Partition.spansFrom_cuts parts hpos
    refine ⟨hlength, by simp [hwords, hcuts.ne_nil], hcuts.start_lt_stop, hcuts.isChain,
      fun _ => ⟨hcuts.start_head, hcuts.stop_getLast⟩, hcuts.stop_dropLast,
      fun hlast => ⟨hcuts.stop_ends hlast, exists_isMadeOf hlast⟩, ?_⟩
    intro hbits
    rw [← hspans]
    refine ⟨Partition.spansFrom?_eq hbits (by omega) (Nat.le_refl _) hpos, ?_⟩
    intro sentences hsentences
    exact Partition.spansFrom_balanced hsentences hbits (by omega) (Nat.le_refl _) hpos (by simp)

/-- A part as long as that: the first cut is looked for from the third word on, where the longest
sentence begins. -/
theorem corpusSpans_balanced_longest :
    (0 < 2 ∧ 2 * 16 ≤ maxBytes) ∧ IsMadeOf [2, 2, 5, 6, 2, 2] 2 [[2], [2], [5, 6, 2], [2]] ∧
      corpusSpans? [2, 2, 5, 6, 2, 2] 2 2 = .ok [⟨0, 5⟩, ⟨5, 6⟩] ∧
      ∀ span ∈ [(⟨0, 5⟩ : Span), ⟨5, 6⟩], span.stop - span.start ≤ 5 := by
  have hmade : IsMadeOf [2, 2, 5, 6, 2, 2] 2 [[2], [2], [5, 6, 2], [2]] := by
    refine ⟨rfl, ?_⟩
    simp only [List.forall_mem_cons]
    exact ⟨⟨[], rfl, by decide⟩, ⟨[], rfl, by decide⟩, ⟨[5, 6], rfl, by decide⟩,
      ⟨[], rfl, by decide⟩, by simp⟩
  have hroom : 2 * 16 ≤ maxBytes := by decide
  obtain ⟨spans, hspans, -, -, -, -, -, -, -, hbits⟩ :=
    corpusSpans_balanced [2, 2, 5, 6, 2, 2] 2 (by decide : 0 < 2) hroom
  obtain ⟨-, hlength⟩ := hbits (by decide)
  have hparts : corpusSpans? [2, 2, 5, 6, 2, 2] 2 2 = .ok [⟨0, 5⟩, ⟨5, 6⟩] := rfl
  rw [hparts] at hspans
  cases hspans
  exact ⟨⟨by decide, hroom⟩, hmade, hparts, hlength _ hmade⟩

/-- Two words are not cut at all into more parts than a list can hold. And `2 ^ 33` sentences of one
word each in `2 ^ 32` parts leave one that is longer than the two words that balanced parts have. -/
theorem corpusSpans_unbalanced :
    (0 < 2 ^ 59 ∧ corpusSpans? [3, 2] 2 (2 ^ 59) = .error .outOfRange) ∧
      IsMadeOf (List.replicate (2 ^ 33) 2) 2 (List.replicate (2 ^ 33) [2]) ∧
      ∃ spans, corpusSpans? (List.replicate (2 ^ 33) 2) 2 (2 ^ 32) = .ok spans ∧
        ¬ ∀ span ∈ spans, span.stop - span.start ≤
          (2 ^ 33 + 2 ^ 32 - 1) / 2 ^ 32 + longest (List.replicate (2 ^ 33) [2]) - 1 := by
  refine ⟨⟨by decide, rfl⟩, ?_⟩
  -- the corpus is not to be written out
  generalize hn : 2 ^ 33 = n
  have hmade : IsMadeOf (List.replicate n 2) 2 (List.replicate n [2]) := by
    refine ⟨List.flatten_replicate_singleton, ?_⟩
    intro sentence hsentence
    obtain ⟨-, rfl⟩ := List.mem_replicate.1 hsentence
    exact ⟨[], rfl, by simp⟩
  refine ⟨hmade, _, corpusSpans?_of_room (by decide) _ _, ?_⟩
  intro hshort
  obtain ⟨span, hspan, hlong⟩ := Partition.spansFrom_wrapped 2 hn.symm
    (show 1 + (2 ^ 32 - 1) = 2 ^ 32 by omega) (by omega) (show 0 + 2 = 2 * 1 by omega) (by omega)
  have hle := hshort span (by rw [corpusSpans, List.length_replicate]; exact hspan)
  rw [longest_replicate [2] (by omega), List.length_singleton] at hle
  omega

end Ngram
