import Mathlib.Order.Bounds.Basic
import Ngram.Proofs.Score.Meaning

/-!
# The walk as a specification

What a walk computes can be said without a machine and without a recursion. The n-grams that end in
a word are ordered by length, and there is a longest one that the shorter ones lead to: each of them
is there, and none but the last says that nothing longer ends in it. Score and state are read off
the records up to that length. This holds for any store, whatever its tables find.

> `Gram.ending`: the n-gram of some length that a word ends behind a context.
> `Linked`: the lengths that the shorter ones lead to.
> `Climb.ends`: the four ways in which a climb ends, and that it cannot be taken up again.
> `isGreatest_linked`: a climb gets to the greatest linked length.
> `Scored`, `Leaves`: what the score and the next state say of this length.
> `Walk.scoreWord_plain`: a walk comes to that score and state.
-/

namespace Ngram

theorem getElem?_of_take {context : List Word} {n i : Nat} {older : Word}
    (h : (context.take n)[i]? = some older) :
    context[i]? = some older := by
  have hlt := (List.getElem?_eq_some_iff.1 h).1
  rw [List.length_take] at hlt
  rw [← h, List.getElem?_take_of_lt (by omega)]

/-- The n-gram of `length` words that a word ends behind a context, most recent word first. -/
def Gram.ending (context : List Word) (word : Word) (length : Nat) : Gram :=
  (context.take (length - 1)).reverse ++ [word]

namespace Gram

variable {context : List Word} {word : Word}

theorem ending_ne_nil (context : List Word) (word : Word) (length : Nat) :
    ending context word length ≠ [] :=
  List.append_ne_nil_of_right_ne_nil _ (List.cons_ne_nil _ _)

/-- The next longer one has one more word in front. -/
theorem ending_succ {older : Word} {n : Nat} (h : context[n]? = some older) :
    ending context word (n + 2) = older :: ending context word (n + 1) := by
  show (context.take (n + 1)).reverse ++ [word] = older :: ((context.take n).reverse ++ [word])
  rw [List.take_add_one, h, Option.toList_some, List.reverse_append, List.reverse_singleton]
  rfl

theorem length_ending {n : Nat} (h : n ≤ context.length) :
    (ending context word (n + 1)).length = n + 1 := by
  show ((context.take n).reverse ++ [word]).length = n + 1
  rw [List.length_append, List.length_reverse, List.length_take_of_le h, List.length_singleton]

/-- A context that is cut is good for the lengths up to the cut. -/
theorem ending_take {n length : Nat} (h : length ≤ n + 1) :
    ending (context.take n) word length = ending context word length := by
  rw [ending, ending, List.take_take, Nat.min_eq_left (by omega)]

end Gram

namespace Store

/-- An ascent that is taken up again where it ended comes to nothing more. -/
theorem ascend_again (s : Store) (level : Nat) (hit : Hit) (context : List Word) :
    s.ascend (level + (s.ascend level hit context).1.length)
        ((s.ascend level hit context).1.getLastD hit)
        (context.drop (s.ascend level hit context).1.length) =
      ([], (s.ascend level hit context).2) := by
  induction context generalizing level hit with
  | nil => rfl
  | cons c cs ih =>
    by_cases hind : hit.independentLeft = true
    · have hend : s.ascend level hit (c :: cs) = ([], none) := by rw [ascend, if_pos hind]
      rw [hend]
      exact hend
    · by_cases horder : level + 2 = s.order
      · have hend : s.ascend level hit (c :: cs) = ([], s.longestProb hit.extendLeft c) := by
          rw [ascend, if_neg hind, if_pos horder]
        rw [hend]
        exact hend
      · cases hnext : s.middleHit level (combine hit.extendLeft c) with
        | none =>
          have hend : s.ascend level hit (c :: cs) = ([], none) := by
            rw [ascend, if_neg hind, if_neg horder, hnext]
          rw [hend]
          exact hend
        | some next =>
          have hmore : s.ascend level hit (c :: cs) =
              (next :: (s.ascend (level + 1) next cs).1, (s.ascend (level + 1) next cs).2) := by
            rw [ascend, if_neg hind, if_neg horder, hnext]
          rw [hmore, List.length_cons, List.getLastD_cons, List.drop_succ_cons,
            Nat.add_comm _ 1, ← Nat.add_assoc]
          exact ih (level + 1) next

/-- Only the last hit of an ascent can be independent to the left. -/
theorem independentLeft_of_lt_length_ascend (s : Store) {level i : Nat} {hit below : Hit}
    {context : List Word} (hget : (hit :: (s.ascend level hit context).1)[i]? = some below)
    (hi : i < (s.ascend level hit context).1.length) : below.independentLeft = false := by
  induction context generalizing level hit i with
  | nil => cases hi
  | cons c cs ih =>
    rw [ascend] at hget hi
    split at hi
    next => cases hi
    next hind =>
      split at hi
      next => cases hi
      next horder =>
        split at hi
        next => cases hi
        next next' hnext =>
          rw [if_neg hind, if_neg horder, hnext] at hget
          cases i with
          | zero =>
            cases hget
            exact eq_false_of_ne_true hind
          | succ i => exact ih hget (Nat.lt_of_succ_lt_succ hi)

end Store

namespace Climb

/-- The four ways in which a climb ends. -/
inductive Ends (s : Store) (context : List Word) (c : Climb) : Prop where
  | usedUp (length : c.above.length = context.length) (longest : c.longest = none)
  | independent (last : c.last.independentLeft = true) (longest : c.longest = none)
  | highest (older : Word) (front : context[c.above.length]? = some older)
      (last : c.last.independentLeft = false) (order : c.above.length + 2 = s.order)
      (longest : c.longest = s.longestProb c.last.extendLeft older)
  | missing (older : Word) (front : context[c.above.length]? = some older)
      (last : c.last.independentLeft = false) (order : c.above.length + 2 ≠ s.order)
      (miss : s.middleHit c.above.length (combine c.last.extendLeft older) = none)
      (longest : c.longest = none)

/-- A climb that is taken up again where it ended comes to nothing more. -/
theorem ascend_last (s : Store) (context : List Word) (word : Word) :
    s.ascend (s.climb context word).above.length (s.climb context word).last
        (context.drop (s.climb context word).above.length) =
      ([], (s.climb context word).longest) := by
  have h := s.ascend_again 0 (s.wordHit word) context
  rw [Nat.zero_add] at h
  exact h

/-- A climb ends in one of these ways. -/
theorem ends (s : Store) (context : List Word) (word : Word) :
    Ends s context (s.climb context word) := by
  have hlen : (s.climb context word).above.length ≤ context.length :=
    (length_above_climb s context word).1
  have hlast := ascend_last s context word
  generalize s.climb context word = c at hlen hlast
  cases hfront : context[c.above.length]? with
  | none =>
    have hused := List.getElem?_eq_none_iff.1 hfront
    rw [List.drop_eq_nil_of_le hused] at hlast
    exact .usedUp (Nat.le_antisymm hlen hused) (congrArg Prod.snd hlast).symm
  | some older =>
    rw [drop_eq_cons hfront, Store.ascend] at hlast
    by_cases hind : c.last.independentLeft = true
    · rw [if_pos hind] at hlast
      exact .independent hind (congrArg Prod.snd hlast).symm
    · have hopen := eq_false_of_ne_true hind
      rw [if_neg hind] at hlast
      by_cases horder : c.above.length + 2 = s.order
      · rw [if_pos horder] at hlast
        exact .highest older hfront hopen horder (congrArg Prod.snd hlast).symm
      · rw [if_neg horder] at hlast
        cases hmiss : s.middleHit c.above.length (combine c.last.extendLeft older) with
        | none =>
          rw [hmiss] at hlast
          exact .missing older hfront hopen horder hmiss (congrArg Prod.snd hlast).symm
        | some hit =>
          -- one more hit would have been part of the climb
          rw [hmiss] at hlast
          cases hlast

/-- The hits that a state keeps end with one whose n-gram can be extended. -/
theorem exists_extension_of_kept {c : Climb} (hkept : 0 < c.kept.length) :
    ∃ hit, (c.base :: c.above)[c.kept.length - 1]? = some hit ∧
      hasExtension hit.backoff = true := by
  have hne : c.kept ≠ [] := List.length_pos_iff.1 hkept
  have hfront : c.kept <+: c.base :: c.above := List.rdropWhile_prefix _ _
  have hlast : ¬(!hasExtension (c.kept.getLast hne).backoff) = true :=
    List.rdropWhile_last_not _ _ hne
  refine ⟨_, List.prefix_iff_getElem?.1 hfront (c.kept.length - 1) (by omega), ?_⟩
  rw [← List.getLast_eq_getElem hne]
  simpa using hlast

end Climb

namespace Store

/-- The number of context words that a store can make use of. -/
def usable (s : Store) (context : List Word) : Nat := min context.length (s.order - 1)

/-- The shorter n-grams that a word ends lead to the one of `length` words: it and they are there,
and the shorter ones do not say that nothing longer ends in them. -/
structure Linked (s : Store) (context : List Word) (word : Word) (length : Nat) : Prop where
  pos : 1 ≤ length
  le_usable : length ≤ s.usable context + 1
  le_below : length ≤ max (s.order - 1) 1
  found : ∀ k, 2 ≤ k → k ≤ length → ∃ r, s.weightsOf (.ending context word k) = some r
  leads : ∀ k, 1 ≤ k → k < length →
    ∃ r, s.weightsOf (.ending context word k) = some r ∧ r.independentLeft = false

/-- The probability of the highest order. It is asked for behind a whole context, if the record
below has not said that nothing longer ends in it. -/
def highest (s : Store) (context : List Word) (word : Word) (length : Nat) (r : Weights) :
    Option Single :=
  if 2 ≤ s.order ∧ length = s.order - 1 ∧ r.independentLeft = false ∧
      s.usable context = s.order - 1 then
    (s.longest.find (Gram.ending context word s.order).key).map LongestEntry.prob
  else none

/-- What the score says of the greatest linked length and its record. -/
structure Scored (s : Store) (context : List Word) (word : Word) (length : Nat) (r : Weights)
    (score : Score) : Prop where
  extendLeft : score.extendLeft = (Gram.ending context word length).key
  below : s.highest context word length r = none →
    score.prob = r.prob ∧ score.rest = r.rest ∧ score.matched = length
  above : ∀ p, s.highest context word length r = some p →
    score.prob = p ∧ score.rest = p ∧ score.matched = s.order
  independentLeft : score.independentLeft = false ↔
    length = s.usable context + 1 ∧ s.usable context + 1 ≤ max (s.order - 1) 1 ∧
      r.independentLeft = false

/-- What the next state says of the greatest linked length, from order two on. -/
structure Leaves (s : Store) (context : List Word) (word : Word) (length : Nat) (out : State) :
    Prop where
  backoff : ∀ i : Fin contextSize, i.val < length →
    ∃ r, s.weightsOf (.ending context word (i.val + 1)) = some r ∧ out.backoffs.get i = r.backoff
  backoff_blank : ∀ i : Fin contextSize, length ≤ i.val → out.backoffs.get i = .zero
  length_out : IsGreatest {k | k = 0 ∨ 1 ≤ k ∧ k ≤ length ∧
    ∃ r, s.weightsOf (.ending context word k) = some r ∧ hasExtension r.backoff = true} out.length
  words : ∀ i : Fin contextSize,
    out.words.get i = ((word :: context.take (out.length - 1))[i.val]?).getD 0

section Plain

variable {s : Store} {context : List Word} {word : Word} {c : Climb}

theorem length_take_usable (s : Store) (context : List Word) :
    (context.take (s.order - 1)).length = s.usable context := by
  rw [List.length_take, usable, Nat.min_comm]

/-- A climb reaches no further than the context and the tables. -/
theorem length_above_le (hc : s.climb (context.take (s.order - 1)) word = c) :
    c.above.length ≤ s.usable context ∧ c.above.length ≤ s.order - 2 := by
  obtain ⟨hcontext, hmiddle⟩ := Climb.length_above_climb s (context.take (s.order - 1)) word
  rw [length_take_usable] at hcontext
  rw [s.middle_size] at hmiddle
  rw [← hc]
  exact ⟨hcontext, hmiddle⟩

/-- Each hit of a climb is that of the record of its length. -/
theorem exists_record (hword : word.toNat < s.unigrams.size)
    (hc : s.climb (context.take (s.order - 1)) word = c) {i : Nat} {hit : Hit}
    (hget : (c.base :: c.above)[i]? = some hit) :
    ∃ r, s.weightsOf (.ending context word (i + 1)) = some r ∧
      hit = r.hit (Gram.ending context word (i + 1)).key := by
  obtain ⟨-, horder⟩ := length_above_le hc
  have hi := (List.getElem?_eq_some_iff.1 hget).1
  rw [List.length_cons] at hi
  have hcut : Gram.ending (context.take (s.order - 1)) word (i + 1) =
      Gram.ending context word (i + 1) := Gram.ending_take (by omega)
  subst hc
  rw [← hcut]
  exact Climb.weightsOf_of_getElem?_hits hword hget

/-- The last hit is that of the record of its length. -/
theorem exists_record_last (hword : word.toNat < s.unigrams.size)
    (hc : s.climb (context.take (s.order - 1)) word = c) :
    ∃ r, s.weightsOf (.ending context word (c.above.length + 1)) = some r ∧
      c.last = r.hit (Gram.ending context word (c.above.length + 1)).key :=
  exists_record hword hc c.getElem?_last

/-- Each length up to that of a climb has a record, and its hit is there. -/
theorem exists_record_of_le (hword : word.toNat < s.unigrams.size)
    (hc : s.climb (context.take (s.order - 1)) word = c) {length : Nat} (hpos : 1 ≤ length)
    (hle : length ≤ c.above.length + 1) :
    ∃ r, s.weightsOf (.ending context word length) = some r ∧
      (c.base :: c.above)[length - 1]? = some (r.hit (Gram.ending context word length).key) := by
  have hlt : length - 1 < (c.base :: c.above).length := by
    rw [List.length_cons]
    omega
  have hget := List.getElem?_eq_getElem hlt
  obtain ⟨r, hr, hhit⟩ := exists_record hword hc hget
  rw [Nat.sub_add_cancel hpos] at hr hhit
  exact ⟨r, hr, by rw [hget, hhit]⟩

/-- All lengths up to that of a climb are linked. -/
theorem linked_of_le (hword : word.toNat < s.unigrams.size)
    (hc : s.climb (context.take (s.order - 1)) word = c) {length : Nat} (hpos : 1 ≤ length)
    (hle : length ≤ c.above.length + 1) : s.Linked context word length := by
  obtain ⟨husable, hbelow⟩ := length_above_le hc
  refine ⟨hpos, by omega, by omega, ?_, ?_⟩
  · intro k htwo hk
    obtain ⟨r, hr, -⟩ := exists_record_of_le hword hc (by omega : 1 ≤ k) (by omega)
    exact ⟨r, hr⟩
  · intro k hone hk
    obtain ⟨r, hr, hget⟩ := exists_record_of_le hword hc hone (by omega)
    -- there is a hit above this one, so it did not say that there is none
    have hbelow : k - 1 < c.above.length := by omega
    subst hc
    exact ⟨r, hr, s.independentLeft_of_lt_length_ascend hget hbelow⟩

/-- No longer one is. -/
theorem le_of_linked (hword : word.toNat < s.unigrams.size)
    (hc : s.climb (context.take (s.order - 1)) word = c) {length : Nat}
    (h : s.Linked context word length) : length ≤ c.above.length + 1 := by
  by_contra hlt
  obtain ⟨r, hr, hlast⟩ := exists_record_last hword hc
  obtain ⟨r', hr', hopen⟩ := h.leads (c.above.length + 1) (by omega) (by omega)
  obtain rfl := Option.some.inj (hr.symm.trans hr')
  have husable := h.le_usable
  have hbelow := h.le_below
  have hends := Climb.ends s (context.take (s.order - 1)) word
  rw [hc] at hends
  -- the climb would have gone on in each of the four cases
  cases hends with
  | usedUp hused =>
    rw [length_take_usable] at hused
    omega
  | independent hind =>
    rw [hlast] at hind
    exact absurd hind (ne_true_of_eq_false hopen)
  | highest older hfront _ horder => omega
  | missing older hfront _ horder hmiss =>
    -- the next longer n-gram is there, and it is what the climb asked for
    obtain ⟨next, hnext⟩ := h.found (c.above.length + 2) (by omega) (by omega)
    rw [Gram.ending_succ (getElem?_of_take hfront)] at hnext
    have hfound := middleHit_cons (s := s) older
      (Gram.ending_ne_nil context word (c.above.length + 1))
    have hextend : c.last.extendLeft = (Gram.ending context word (c.above.length + 1)).key := by
      rw [hlast]
      rfl
    have hlength : (Gram.ending context word (c.above.length + 1)).length = c.above.length + 1 :=
      Gram.length_ending (Nat.le_of_lt (List.getElem?_eq_some_iff.1 (getElem?_of_take hfront)).1)
    rw [hlength, Nat.add_sub_cancel, ← hextend, hmiss, hnext] at hfound
    cases hfound

/-- **A climb gets to the greatest linked length.** -/
theorem isGreatest_linked (hword : word.toNat < s.unigrams.size)
    (hc : s.climb (context.take (s.order - 1)) word = c) :
    IsGreatest {length | s.Linked context word length} (c.above.length + 1) :=
  ⟨linked_of_le hword hc (Nat.le_add_left 1 _) (Nat.le_refl _),
    fun _ h => le_of_linked hword hc h⟩

/-- The probability of the highest order is that of the climb. -/
theorem highest_eq (hword : word.toNat < s.unigrams.size)
    (hc : s.climb (context.take (s.order - 1)) word = c) {r : Weights}
    (hr : s.weightsOf (.ending context word (c.above.length + 1)) = some r) :
    s.highest context word (c.above.length + 1) r = c.longest := by
  obtain ⟨husable, hbelow⟩ := length_above_le hc
  obtain ⟨r', hr', hlast⟩ := exists_record_last hword hc
  obtain rfl := Option.some.inj (hr.symm.trans hr')
  have hflag : c.last.independentLeft = r.independentLeft := by rw [hlast, Weights.hit]
  have hends := Climb.ends s (context.take (s.order - 1)) word
  rw [hc] at hends
  unfold highest
  cases hends with
  | usedUp hused hlongest =>
    rw [length_take_usable] at hused
    rw [if_neg (by omega), hlongest]
  | independent hind hlongest =>
    rw [hflag] at hind
    rw [if_neg (fun h => absurd hind (ne_true_of_eq_false h.2.2.1)), hlongest]
  | highest older hfront hind horder hlongest =>
    rw [hflag] at hind
    have hlt := (List.getElem?_eq_some_iff.1 hfront).1
    rw [length_take_usable] at hlt
    have hreach : s.usable context ≤ s.order - 1 := Nat.min_le_right _ _
    rw [if_pos ⟨by omega, by omega, hind, by omega⟩, hlongest, longestProb, hlast, ← horder,
      Gram.ending_succ (getElem?_of_take hfront), Gram.key_cons older (Gram.ending_ne_nil _ _ _)]
    rfl
  | missing older hfront hind horder hmiss hlongest => rw [if_neg (by omega), hlongest]

theorem of_highest_eq_some {length : Nat} {r : Weights} {p : Single}
    (h : s.highest context word length r = some p) :
    2 ≤ s.order ∧ length = s.order - 1 ∧ s.usable context = s.order - 1 := by
  unfold highest at h
  split at h
  next hall => exact ⟨hall.1, hall.2.1, hall.2.2.2⟩
  next => cases h

/-- The score of a climb is what the plain walk says. -/
theorem scored_climb (hword : word.toNat < s.unigrams.size)
    (hc : s.climb (context.take (s.order - 1)) word = c) {r : Weights}
    (hr : s.weightsOf (.ending context word (c.above.length + 1)) = some r) :
    s.Scored context word (c.above.length + 1) r (c.score s.order (s.usable context)) := by
  obtain ⟨husable, hbelow⟩ := length_above_le hc
  obtain ⟨r', hr', hlast⟩ := exists_record_last hword hc
  obtain rfl := Option.some.inj (hr.symm.trans hr')
  have hhighest := highest_eq hword hc hr
  cases hlongest : c.longest with
  | some p =>
    rw [hlongest] at hhighest
    have hscore : c.score s.order (s.usable context) =
        ⟨p, p, s.order, true, c.last.extendLeft⟩ := by rw [Climb.score, hlongest]
    rw [hscore, hlast]
    refine ⟨rfl, ?_, ?_, ?_⟩
    · intro hnone
      rw [hhighest] at hnone
      cases hnone
    · intro p' hp'
      rw [hhighest] at hp'
      cases hp'
      exact ⟨rfl, rfl, rfl⟩
    · -- the context has one word more than the record below the highest order needs
      obtain ⟨htwo, hlength, hreach⟩ := of_highest_eq_some hhighest
      constructor
      · intro h
        cases h
      · rintro ⟨hused, -⟩
        omega
  | none =>
    rw [hlongest] at hhighest
    have hscore : c.score s.order (s.usable context) =
        { Score.ofHit c.last (c.above.length + 1) with
          independentLeft := c.last.independentLeft ||
            decide (c.above.length < s.usable context) } := by rw [Climb.score, hlongest]
    rw [hscore, hlast]
    refine ⟨rfl, fun _ => ⟨rfl, rfl, rfl⟩, ?_, ?_⟩
    · intro p' hp'
      rw [hhighest] at hp'
      cases hp'
    · show (r.independentLeft || decide (c.above.length < s.usable context)) = false ↔ _
      rw [Bool.or_eq_false_iff, decide_eq_false_iff_not]
      constructor
      · rintro ⟨hopen, hused⟩
        exact ⟨by omega, by omega, hopen⟩
      · rintro ⟨hused, -, hopen⟩
        exact ⟨hopen, by omega⟩

/-- The state of a climb is what the plain walk says. -/
theorem leaves_climb (hword : word.toNat < s.unigrams.size)
    (hc : s.climb (context.take (s.order - 1)) word = c) (hone : 1 < s.order) :
    s.Leaves context word (c.above.length + 1)
      (c.state s.order (context.take (s.order - 1)) word) := by
  obtain ⟨husable, hbelow⟩ := length_above_le hc
  have hkept := c.length_kept_le
  have hcut : (context.take (s.order - 1)).take (c.kept.length - 1) =
      context.take (c.kept.length - 1) := by
    rw [List.take_take, Nat.min_eq_left (by omega)]
  rw [Climb.state, if_pos hone, hcut]
  refine ⟨?_, ?_, ⟨?_, ?_⟩, ?_⟩
  · intro i hi
    obtain ⟨r, hr, hget⟩ := exists_record_of_le hword hc (Nat.le_add_left 1 i.val) hi
    rw [Nat.add_sub_cancel] at hget
    refine ⟨r, hr, ?_⟩
    show (Walk.overwrite _ _)[i.val] = _
    rw [Walk.getElem_overwrite, Climb.backoffs, List.getElem?_map, hget]
    rfl
  · intro i hi
    have hnone : c.backoffs[i.val]? = none := by
      rw [List.getElem?_eq_none_iff, c.length_backoffs]
      exact hi
    show (Walk.overwrite _ _)[i.val] = _
    rw [Walk.getElem_overwrite, hnone]
    simp [State.empty]
  · -- the length is none, or that of an n-gram that can be extended
    rcases Nat.eq_zero_or_pos c.kept.length with hzero | hpos
    · exact Or.inl hzero
    · obtain ⟨hit, hget, hext⟩ := Climb.exists_extension_of_kept hpos
      obtain ⟨r, hr, hhit⟩ := exists_record hword hc hget
      rw [Nat.sub_add_cancel hpos] at hr
      rw [hhit] at hext
      exact Or.inr ⟨hpos, hkept, r, hr, hext⟩
  · rintro k (rfl | ⟨hpos, hle, r, hr, hext⟩)
    · exact Nat.zero_le _
    · obtain ⟨r', hr', hget⟩ := exists_record_of_le hword hc hpos hle
      obtain rfl := Option.some.inj (hr.symm.trans hr')
      have hkeeps := Climb.lt_length_kept hget hext
      show k ≤ c.kept.length
      omega
  · intro i
    show (Walk.overwrite _ _)[i.val] = _
    rw [Walk.getElem_overwrite]
    simp [State.empty]

end Plain

end Store

namespace Walk

/-- **A walk computes the plain walk along suffixes.** For any store, any context and any word below
the bound, a walk, whatever it did before, comes to an end, and with the greatest length that the
shorter n-grams lead to the score and the next state are what the records say. -/
theorem scoreWord_plain (s : Store) (w : Walk) (context : List Word) {word : Word}
    (hword : word < s.bound) :
    ∃ length r w', IsGreatest {length | s.Linked context word length} length ∧
      s.weightsOf (.ending context word length) = some r ∧
      w.scoreWord s context word = .ok w' ∧ w'.finished = true ∧
      s.Scored context word length r w'.score ∧
      (1 < s.order → s.Leaves context word length w'.out) ∧ (s.order = 1 → w'.out = .empty) := by
  have hlt := Store.toNat_lt_of_lt_bound hword
  obtain ⟨w', hrun, hended⟩ := scoreWord_eq w context hlt
  -- the machine computes a climb, and the climb the plain walk
  generalize hc : s.climb (context.take (s.order - 1)) word = c at hended
  obtain ⟨r, hr, -⟩ := Store.exists_record_last hlt hc
  refine ⟨_, r, w', Store.isGreatest_linked hlt hc, hr, hrun, hended.finished, ?_, ?_, ?_⟩
  · rw [hended.score, Store.length_take_usable]
    exact Store.scored_climb hlt hc hr
  · intro hone
    rw [hended.out]
    exact Store.leaves_climb hlt hc hone
  · intro hone
    rw [hended.out, Climb.state, if_neg (by omega)]

open Model in
/-- The word `2` behind more words than the order allows: the pair `1 2` is found, and then the
highest order is asked and has nothing. -/
theorem scoreWord_plain_pair :
    (2 : Word) < misplacedModel.store.bound ∧
      ∃ length r w', IsGreatest {length | misplacedModel.store.Linked [1, 3, 3, 0] 2 length} length ∧
        misplacedModel.store.weightsOf (.ending [1, 3, 3, 0] 2 length) = some r ∧
        idle.scoreWord misplacedModel.store [1, 3, 3, 0] 2 = .ok w' ∧
        misplacedModel.store.Scored [1, 3, 3, 0] 2 length r w'.score ∧
        misplacedModel.store.Leaves [1, 3, 3, 0] 2 length w'.out ∧
        w'.score.matched = 2 ∧ w'.score.independentLeft = true := by
  have hword : (2 : Word) < misplacedModel.store.bound := by decide
  obtain ⟨length, r, w', hgreatest, hr, hrun, -, hscored, hleaves, -⟩ :=
    scoreWord_plain misplacedModel.store idle [1, 3, 3, 0] hword
  have hresult : (idle.scoreWord misplacedModel.store [1, 3, 3, 0] 2).toOption.map
      (fun w => (w.score.matched, w.score.independentLeft)) = some (2, true) := by decide +kernel
  rw [hrun] at hresult
  obtain ⟨hmatched, hind⟩ := Prod.mk.inj (Option.some.inj hresult)
  exact ⟨hword, length, r, w', hgreatest, hr, hrun, hscored, hleaves (by decide), hmatched, hind⟩

end Walk

end Ngram
