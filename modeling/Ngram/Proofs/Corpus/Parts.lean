import Ngram.Corpus.Partition

/-!
# The parts of a corpus

However many parts are asked for, the parts of a corpus follow one another without a gap, and each
is cut off behind the end of a sentence. So the parts of a corpus that ends with the end of a
sentence do so too, and no sentence is split, left out or scored twice.

> `spansFrom_cuts`: the parts from some word on are cuts, one behind the other.
> `Cuts.flatten`, `Cuts.ends`: such parts make up the corpus, each with the end of a sentence last.
> `corpusSpans_parts`: the same of a whole corpus, with the number of its parts.
-/

namespace Ngram

/-- Parts that follow one another from `start` to the end of a corpus. All but the last are cut off
behind the end of a sentence. -/
inductive Cuts (words : List Word) (eos : Word) : Nat → List Span → Prop where
  | rest {start : Nat} : start < words.length → Cuts words eos start [⟨start, words.length⟩]
  | cut {start stop : Nat} {spans : List Span} : start < stop → words[stop - 1]? = some eos →
      Cuts words eos stop spans → Cuts words eos start (⟨start, stop⟩ :: spans)

namespace Cuts

variable {words : List Word} {eos : Word} {start : Nat} {spans : List Span}

theorem start_lt (h : Cuts words eos start spans) : start < words.length := by
  induction h with
  | rest hlt => exact hlt
  | cut hlt _ _ ih => exact Nat.lt_trans hlt ih

theorem ne_nil (h : Cuts words eos start spans) : spans ≠ [] := by
  cases h <;> exact List.cons_ne_nil _ _

/-- The parts make up what is left of the corpus. -/
theorem flatten (h : Cuts words eos start spans) :
    (spans.map (Span.slice · words)).flatten = words.drop start := by
  induction h with
  | @rest start hlt =>
    simp only [List.map_cons, List.map_nil, List.flatten_cons, List.flatten_nil, List.append_nil]
    exact List.take_of_length_le (Nat.le_of_eq List.length_drop)
  | @cut start stop spans hlt _ _ ih =>
    rw [List.map_cons, List.flatten_cons, ih, Span.slice]
    have hdrop : words.drop stop = (words.drop start).drop (stop - start) := by
      rw [List.drop_drop]
      congr 1
      omega
    rw [hdrop, List.take_append_drop]

/-- The last word of a part is the one in front of its stop. -/
theorem getLast?_slice {span : Span} (hlt : span.start < span.stop)
    (hle : span.stop ≤ words.length) :
    (span.slice words).getLast? = words[span.stop - 1]? := by
  have hlen : (span.slice words).length = span.stop - span.start := by
    rw [Span.slice, List.length_take, List.length_drop]
    omega
  rw [List.getLast?_eq_getElem?, hlen, Span.slice, List.getElem?_take_of_lt (by omega),
    List.getElem?_drop]
  congr 1
  omega

/-- Each part has the end of a sentence last, if the corpus has. -/
theorem ends (h : Cuts words eos start spans) (hlast : words.getLast? = some eos) :
    ∀ span ∈ spans, (span.slice words).getLast? = some eos := by
  induction h with
  | rest hlt =>
    intro span hspan
    rw [List.mem_singleton.1 hspan, getLast?_slice hlt (Nat.le_refl _), ← hlast,
      List.getLast?_eq_getElem?]
  | cut hlt hstop hmore ih =>
    have hle := Nat.le_of_lt hmore.start_lt
    rw [List.forall_mem_cons]
    exact ⟨(getLast?_slice hlt hle).trans hstop, ih⟩

end Cuts

namespace Partition

variable {words : List Word} {eos : Word}

/-- A cut is made behind the end of a sentence that does not end before the target. -/
theorem cut?_eq_some {target stop : Nat} (htarget : 0 < target)
    (h : cut? words eos target = some stop) : target ≤ stop ∧ words[stop - 1]? = some eos := by
  obtain ⟨i, hi, rfl⟩ := Option.map_eq_some_iff.1 h
  obtain ⟨hlt, heos, -⟩ := List.findIdx?_eq_some_iff_getElem.1 hi
  refine ⟨Nat.le_add_right _ _, ?_⟩
  rw [List.getElem_drop, beq_iff_eq] at heos
  rw [List.length_drop] at hlt
  have hindex : target + i - 1 = target - 1 + i := by omega
  rw [hindex, List.getElem?_eq_getElem (by omega), heos]

theorem rest_cuts {start : Nat} (h : start < words.length) :
    Cuts words eos start (rest words.length start) := by
  rw [rest, if_pos h]
  exact .rest h

theorem length_rest_le (length start : Nat) : (rest length start).length ≤ 1 := by
  unfold rest
  split <;> simp

/-- The parts from some word on are cuts, one behind the other. -/
theorem spansFrom_cuts (parts : Nat) {start i left : Nat} (h : start < words.length) :
    Cuts words eos start (spansFrom words eos words.length parts start i left) := by
  induction left generalizing start i with
  | zero => exact rest_cuts h
  | succ left ih =>
    simp only [spansFrom]
    split
    next => exact rest_cuts h
    next =>
      split
      next => exact rest_cuts h
      next stop hcut =>
        split
        next => exact rest_cuts h
        next hmore =>
          obtain ⟨hle, heos⟩ := cut?_eq_some (by omega) hcut
          exact .cut (by omega) heos (ih (by omega))

/-- Each cut that is made takes one of those still to be made. -/
theorem length_spansFrom_le (words : List Word) (eos : Word) (length parts start i left : Nat) :
    (spansFrom words eos length parts start i left).length ≤ left + 1 := by
  induction left generalizing start i with
  | zero => exact length_rest_le _ _
  | succ left ih =>
    have hrest : (rest length start).length ≤ left + 1 + 1 :=
      Nat.le_trans (length_rest_le _ _) (by omega)
    simp only [spansFrom]
    split
    next => exact hrest
    next =>
      split
      next => exact hrest
      next =>
        split
        next => exact hrest
        next => exact Nat.succ_le_succ (ih _ _)

end Partition

/-- **A corpus is cut between its sentences only.** The parts of a corpus that ends with the end of
a sentence make it up, end so themselves, and are at least one and at most as many as were asked
for. -/
theorem corpusSpans_parts {words : List Word} {eos : Word} {parts : Nat}
    (h : words.getLast? = some eos) (hparts : 0 < parts) :
    ((corpusSpans words eos parts).map (Span.slice · words)).flatten = words ∧
      (∀ span ∈ corpusSpans words eos parts, (span.slice words).getLast? = some eos) ∧
      0 < (corpusSpans words eos parts).length ∧ (corpusSpans words eos parts).length ≤ parts := by
  have hpos : 0 < words.length := by
    cases words with
    | nil => cases h
    | cons word words => exact Nat.succ_pos _
  have hcuts : Cuts words eos 0 (corpusSpans words eos parts) := Partition.spansFrom_cuts parts hpos
  have hle := Partition.length_spansFrom_le words eos words.length parts 0 1 (parts - 1)
  rw [Nat.sub_add_cancel hparts] at hle
  exact ⟨hcuts.flatten, hcuts.ends h, List.length_pos_iff.2 hcuts.ne_nil, hle⟩

/-- Ten words in four parts are three: the third cut would be behind the last word. -/
example : corpusSpans [5, 2, 6, 7, 2, 2, 8, 8, 8, 2] 2 4 = [⟨0, 2⟩, ⟨2, 5⟩, ⟨5, 10⟩] := by decide

end Ngram
