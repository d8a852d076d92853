import Mathlib.Data.List.DropRight
import Ngram.Model.Basic

/-!
# The walk as a plain recursion

A `Walk` is a machine: it holds buffers, a cursor that was worked out one step ago, and flags. What
it computes is a recursion over the context. From the hit of the single word it climbs to the hits
of longer and longer n-grams (`Store.ascend`), and the hits that it meets, a `Climb`, decide the
score and the next state.

> `Reached`: a walk under way holds the climb so far, and has located the next n-gram of it.
> `Reached.step`: a step either adds the next hit or ends with the whole climb.
> `OnWay.doneIn`: the number of hits tells at which step that is.
> `scoreWord_eq`: a walk that was used before, for any context and any word of the vocabulary, ends
> with the score and the state of the climb.

The result does not depend on what the walk was used for before.
-/

namespace Ngram

namespace Store

/-- The hit of a single word of the vocabulary. -/
def wordHit (s : Store) (word : Word) : Hit :=
  ((s.unigrams[word.toNat]?).getD default).hit word.toUInt64

/-- The hit of the n-gram of order `level + 2` with a given key. -/
def middleHit (s : Store) (level : Nat) (node : UInt64) : Option Hit :=
  (s.middle[level]?).bind fun t => (t.find node).map fun e => e.weights.hit node

/-- The hits above a hit of order `level + 1`, with more and more of the context in front, and the
probability at the highest order if the climb gets there. -/
def ascend (s : Store) (level : Nat) (hit : Hit) : List Word → List Hit × Option Single
  | [] => ([], none)
  | c :: cs =>
    if hit.independentLeft then ([], none)
    else if level + 2 = s.order then ([], s.longestProb hit.extendLeft c)
    else match s.middleHit level (combine hit.extendLeft c) with
      | none => ([], none)
      | some next =>
        let rest := s.ascend (level + 1) next cs
        (next :: rest.1, rest.2)

end Store

/-- The hits for a word: that of the word alone and those above it, in increasing length. -/
structure Climb where
  base : Hit
  above : List Hit := []
  longest : Option Single := none

namespace Climb

/-- The hit of the longest n-gram below the highest order. -/
def last (c : Climb) : Hit := c.above.getLastD c.base

/-- One more hit. -/
def push (c : Climb) (hit : Hit) : Climb := { c with above := c.above ++ [hit] }

/-- The hits that a state keeps: up to the last n-gram that can be extended. -/
def kept (c : Climb) : List Hit := (c.base :: c.above).rdropWhile fun h => !hasExtension h.backoff

/-- The backoffs that were found, by length. -/
def backoffs (c : Climb) : List Single := (c.base :: c.above).map Hit.backoff

/-- The climb from where it stands on. -/
def complete (s : Store) (context : List Word) (c : Climb) : Climb :=
  let rest := s.ascend c.above.length c.last (context.drop c.above.length)
  { c with above := c.above ++ rest.1, longest := rest.2 }

/-- The score of a whole climb. -/
def score (order contextLength : Nat) (c : Climb) : Score :=
  match c.longest with
  | some p => ⟨p, p, order, true, c.last.extendLeft⟩
  | none =>
    let short := decide (c.above.length < contextLength)
    { Score.ofHit c.last (c.above.length + 1) with
      independentLeft := c.last.independentLeft || short }

/-- The state behind a word while its climb is under way. -/
def underWay (order : Nat) (word : Word) (c : Climb) : State :=
  if 1 < order then
    { words := State.empty.words.set 0 word contextSize_pos
      backoffs := Walk.overwrite State.empty.backoffs c.backoffs
      length := c.kept.length }
  else .empty

/-- The state behind a word: as many of the last words as were kept. -/
def state (order : Nat) (context : List Word) (word : Word) (c : Climb) : State :=
  if 1 < order then
    { words := Walk.overwrite State.empty.words (word :: context.take (c.kept.length - 1))
      backoffs := Walk.overwrite State.empty.backoffs c.backoffs
      length := c.kept.length }
  else .empty

@[simp] theorem above_push (c : Climb) (hit : Hit) : (c.push hit).above = c.above ++ [hit] := rfl

@[simp] theorem base_push (c : Climb) (hit : Hit) : (c.push hit).base = c.base := rfl

@[simp] theorem last_push (c : Climb) (hit : Hit) : (c.push hit).last = hit := by
  simp [last, List.getLastD_eq_getLast?]

theorem kept_push (c : Climb) (hit : Hit) : (c.push hit).kept.length =
    if hasExtension hit.backoff then c.above.length + 2 else c.kept.length := by
  rw [kept, above_push, base_push, ← List.cons_append, List.rdropWhile_concat]
  cases hasExtension hit.backoff with
  | true => simp
  | false => simp [kept]

theorem length_kept_le (c : Climb) : c.kept.length ≤ c.above.length + 1 := by
  have hkept : c.kept <+: c.base :: c.above := List.rdropWhile_prefix _ _
  exact hkept.length_le

theorem backoffs_push (c : Climb) (hit : Hit) :
    (c.push hit).backoffs = c.backoffs ++ [hit.backoff] := by
  simp [backoffs]

theorem length_backoffs (c : Climb) : c.backoffs.length = c.above.length + 1 := by
  simp [backoffs]

/-- A climb takes one context word and one table for each hit above the first. -/
theorem length_ascend (s : Store) (level : Nat) (hit : Hit) (context : List Word) :
    (s.ascend level hit context).1.length ≤ context.length ∧
      (s.ascend level hit context).1.length ≤ s.middle.size - level := by
  induction context generalizing level hit with
  | nil => simp [Store.ascend]
  | cons older rest ih =>
    rw [Store.ascend]
    split
    next => simp
    next =>
      split
      next => simp
      next =>
        split
        next => simp
        next next' hhit =>
          obtain ⟨t, ht, -⟩ := Option.bind_eq_some_iff.1 hhit
          have hlevel := (Array.getElem?_eq_some_iff.1 ht).1
          have := ih (level + 1) next'
          simp only [List.length_cons]
          omega

section Complete

variable {s : Store} {context : List Word} {c : Climb}

/-- A climb ends where the context is used up, or where no longer n-gram ends in the last hit. -/
theorem complete_of_stop (h : c.above.length = context.length ∨ c.last.independentLeft = true) :
    c.complete s context = { c with longest := none } := by
  have hascend : s.ascend c.above.length c.last (context.drop c.above.length) = ([], none) := by
    cases hdrop : context.drop c.above.length with
    | nil => rfl
    | cons older rest =>
      rcases h with hlen | hind
      · rw [hlen, List.drop_length] at hdrop
        cases hdrop
      · rw [Store.ascend, if_pos hind]
  simp [complete, hascend]

theorem drop_eq_cons {older : Word} (h : context[c.above.length]? = some older) :
    context.drop c.above.length = older :: context.drop (c.above.length + 1) := by
  obtain ⟨hlt, rfl⟩ := List.getElem?_eq_some_iff.1 h
  exact List.drop_eq_getElem_cons hlt

/-- A climb ends at the highest order, with or without a probability there. -/
theorem complete_of_longest {older : Word} (h : context[c.above.length]? = some older)
    (hind : c.last.independentLeft = false) (horder : c.above.length + 2 = s.order) :
    c.complete s context = { c with longest := s.longestProb c.last.extendLeft older } := by
  simp [complete, drop_eq_cons h, Store.ascend, hind, horder]

/-- A climb ends where the next n-gram is missing. -/
theorem complete_of_miss {older : Word} (h : context[c.above.length]? = some older)
    (hind : c.last.independentLeft = false) (horder : c.above.length + 2 ≠ s.order)
    (hmiss : s.middleHit c.above.length (combine c.last.extendLeft older) = none) :
    c.complete s context = { c with longest := none } := by
  simp [complete, drop_eq_cons h, Store.ascend, hind, horder, hmiss]

/-- Where the next n-gram is there, the climb goes on from it. -/
theorem complete_of_hit {older : Word} {hit : Hit} (h : context[c.above.length]? = some older)
    (hind : c.last.independentLeft = false) (horder : c.above.length + 2 ≠ s.order)
    (hhit : s.middleHit c.above.length (combine c.last.extendLeft older) = some hit) :
    c.complete s context = (c.push hit).complete s context := by
  have hascend : s.ascend c.above.length c.last (context.drop c.above.length) =
      (hit :: (s.ascend (c.above.length + 1) hit (context.drop (c.above.length + 1))).1,
        (s.ascend (c.above.length + 1) hit (context.drop (c.above.length + 1))).2) := by
    rw [drop_eq_cons h, Store.ascend, if_neg (by simp [hind]), if_neg horder, hhit]
  rw [complete, complete, hascend, last_push]
  simp [push]

end Complete

end Climb

/-- The climb for a word after a context. -/
def Store.climb (s : Store) (context : List Word) (word : Word) : Climb :=
  Climb.complete s context { base := s.wordHit word }

namespace Walk

theorem getElem_overwrite {n : Nat} {α : Type} (buffer : Vector α n) (front : List α) (i : Nat)
    (hi : i < n) : (overwrite buffer front)[i] = (front[i]?).getD buffer[i] := by
  simp [overwrite]

/-- Setting the place behind what was written over a buffer writes one more element. -/
theorem set_overwrite {n : Nat} {α : Type} (buffer : Vector α n) (front : List α) (x : α)
    (h : front.length < n) :
    (overwrite buffer front).set front.length x = overwrite buffer (front ++ [x]) := by
  ext i hi
  rw [Vector.getElem_set, getElem_overwrite, getElem_overwrite]
  rcases Nat.lt_trichotomy i front.length with hlt | rfl | hgt
  · rw [if_neg (by omega), List.getElem?_append_left hlt]
  · simp
  · rw [if_neg (by omega), List.getElem?_eq_none (by omega), List.getElem?_eq_none]
    simp
    omega

/-- A walk under way, behind `context` (cut to what the order allows), holds the hits so far. -/
structure Holding (s : Store) (context : List Word) (word : Word) (c : Climb) (w : Walk) :
    Prop where
  finished : w.finished = false
  agrees : ∀ i < context.length, w.context[i]? = context[i]?
  contextLength : w.contextLength = context.length
  taken : w.taken = c.above.length
  level : w.level = c.above.length
  score : w.score = .ofHit c.last (c.above.length + 1)
  out : w.out = c.underWay s.order word
  above_le : c.above.length ≤ context.length
  above_le_size : c.above.length ≤ s.middle.size

/-- Between two steps the next n-gram to look for, if there is one, has been located as well. -/
structure Reached (s : Store) (context : List Word) (word : Word) (c : Climb) (w : Walk) : Prop
    extends Holding s context word c w where
  located : ∀ older, context[c.above.length]? = some older →
    if c.above.length + 2 = s.order then w.node = c.last.extendLeft
    else w.node = combine c.last.extendLeft older ∧
      ∃ t, s.middle[c.above.length]? = some t ∧ w.cursor = t.locate w.node

/-- A walk at its end, with the score and the state of a climb. -/
structure Ended (s : Store) (context : List Word) (word : Word) (c : Climb) (w : Walk) :
    Prop where
  finished : w.finished = true
  score : w.score = c.score s.order context.length
  out : w.out = c.state s.order context word

section Ends

variable {s : Store} {context : List Word} {word : Word} {w : Walk}

/-- Ending a walk writes the context words that are kept behind the newest word. -/
theorem finishStep_eq {c : Climb} (hagrees : ∀ i < context.length, w.context[i]? = context[i]?)
    (habove : c.above.length ≤ context.length) (hsize : c.above.length ≤ s.middle.size)
    (hout : w.out = c.underWay s.order word) :
    ∃ w', w.finishStep = .ok (.done, w') ∧ w'.finished = true ∧ w'.score = w.score ∧
      w'.level = w.level ∧ w'.out = c.state s.order context word := by
  have horder : s.order ≤ contextSize + 1 := s.order_le
  have hmiddle := s.middle_size
  have hkept := c.length_kept_le
  have hkeep : w.out.length - 1 < contextSize := by
    rw [hout, Climb.underWay]
    split
    next => dsimp only; omega
    next => decide
  unfold finishStep finish
  dsimp only
  rw [if_pos hkeep]
  refine ⟨_, rfl, rfl, rfl, rfl, ?_⟩
  rw [hout, Climb.underWay, Climb.state]
  split
  next =>
    -- the newest word is in front, and the buffer holds the context behind it
    have hwords : (Vector.ofFn fun i : Fin contextSize =>
        if i.val - 1 < c.kept.length - 1 ∧ 0 < i.val then w.context[i.val - 1]
        else (State.empty.words.set 0 word)[i]) =
        overwrite State.empty.words (word :: context.take (c.kept.length - 1)) := by
      ext i hi
      rw [Vector.getElem_ofFn, getElem_overwrite]
      cases i with
      | zero => simp
      | succ i =>
        rw [List.getElem?_cons_succ, List.getElem?_take]
        dsimp only
        by_cases hik : i < c.kept.length - 1
        · have hctx := hagrees i (by omega)
          rw [Vector.getElem?_eq_getElem (by omega)] at hctx
          simp [hik, ← hctx]
        · simp [hik]
    rw [hwords]
  next => simp [State.empty]; ext i hi; simp

/-- A step with nothing longer left to look for below the highest order ends the walk. -/
theorem Holding.finishStep {c c' : Climb} (h : Holding s context word c w) {score : Score}
    (habove : c'.above = c.above) (hbase : c'.base = c.base)
    (hscore : score = c'.score s.order context.length) :
    ∃ w', Walk.finishStep { w with score } = .ok (.done, w') ∧ Ended s context word c' w' ∧
      w'.level = w.level := by
  have hunder : c'.underWay s.order word = c.underWay s.order word := by
    simp only [Climb.underWay, Climb.kept, Climb.backoffs, habove, hbase]
  obtain ⟨w', hw, hfin, hsc, hlev, hout⟩ := finishStep_eq (w := { w with score }) h.agrees
    (habove ▸ h.above_le) (habove ▸ h.above_le_size) (h.out.trans hunder.symm)
  exact ⟨w', hw, ⟨hfin, hsc.trans hscore, hout⟩, hlev⟩

/-- Taking in the next context word locates the next n-gram. -/
theorem issue_eq {older : Word} {t : Table MiddleEntry} (hword : w.context[w.taken]? = some older)
    (ht : s.middle[w.level]? = some t) :
    w.issue s = .ok { w with
      node := combine w.node older
      cursor := t.locate (combine w.node older) } := by
  simp only [issue, hword, Store.locate, ht]

/-- Preparing locates the next n-gram of the climb, if there is one to look for. -/
theorem Holding.prepare {c : Climb} (h : Holding s context word c w)
    (hlen : context.length ≤ s.order - 1) (hnode : w.node = c.last.extendLeft) :
    ∃ w', w.prepare s = .ok w' ∧ Reached s context word c w' := by
  have hmiddle := s.middle_size
  have habove := h.above_le
  unfold Walk.prepare
  split
  next hmore =>
    rw [h.taken, h.contextLength, h.level] at hmore
    have hlt : c.above.length < context.length := by omega
    have hword : w.context[w.taken]? = some context[c.above.length] := by
      rw [h.taken, h.agrees _ hlt, List.getElem?_eq_getElem hlt]
    have ht : s.middle[w.level]? = some s.middle[c.above.length] := by
      rw [h.level, Array.getElem?_eq_getElem (by omega)]
    refine ⟨_, issue_eq hword ht, ⟨h.finished, h.agrees, h.contextLength, h.taken, h.level,
      h.score, h.out, h.above_le, h.above_le_size⟩, ?_⟩
    intro older holder
    rw [List.getElem?_eq_getElem hlt, Option.some.injEq] at holder
    rw [if_neg hmore.2, ← holder, ← hnode]
    exact ⟨rfl, _, Array.getElem?_eq_getElem (by omega), rfl⟩
  next hdone =>
    refine ⟨w, rfl, h, ?_⟩
    intro older holder
    have hlt := (List.getElem?_eq_some_iff.1 holder).1
    rw [h.taken, h.contextLength, h.level] at hdone
    rw [if_pos (by omega)]
    exact hnode

/-- A walk that moves on to a hit has the state of the climb with that hit. -/
theorem underWay_push (word : Word) (c : Climb) (hone : 1 < s.order) (hit : Hit) {i : Nat}
    (hi : i < contextSize) (heq : i = c.above.length + 1) :
    ({ c.underWay s.order word with
        backoffs := (c.underWay s.order word).backoffs.set i hit.backoff
        length := if hasExtension hit.backoff then i + 1
          else (c.underWay s.order word).length } : State) =
      (c.push hit).underWay s.order word := by
  subst heq
  have hset := set_overwrite State.empty.backoffs c.backoffs hit.backoff
    (by rw [Climb.length_backoffs]; exact hi)
  simp only [Climb.length_backoffs] at hset
  simp only [Climb.underWay, if_pos hone, hset, Climb.kept_push, Climb.backoffs_push]

/-- A walk that has found the located n-gram moves on to it. -/
theorem Reached.advance {c : Climb} {hit : Hit} (h : Reached s context word c w)
    (hlen : context.length ≤ s.order - 1) (hlt : c.above.length < context.length)
    (hlevel : c.above.length < s.middle.size) (hnode : w.node = hit.extendLeft) :
    ∃ w₁ w', w.advance hit = .ok w₁ ∧ w₁.prepare s = .ok w' ∧
      Reached s context word (c.push hit) w' ∧ w'.level = w.level + 1 := by
  have horder : s.order ≤ contextSize + 1 := s.order_le
  have hmiddle := s.middle_size
  have hbound : w.level + 2 - 1 < contextSize := by
    rw [h.level]
    omega
  have hout := underWay_push word c (by omega : 1 < s.order) hit hbound
    (by rw [h.level]; omega)
  rw [← h.out] at hout
  unfold Walk.advance
  dsimp only
  rw [dif_pos hbound]
  have hholding : Holding s context word (c.push hit) { w with
      score := .ofHit hit (w.level + 2)
      out := { w.out with
        backoffs := w.out.backoffs.set (w.level + 2 - 1) hit.backoff
        length := if hasExtension hit.backoff then w.level + 2 else w.out.length }
      level := w.level + 1
      taken := w.taken + 1 } :=
    ⟨h.finished, h.agrees, h.contextLength, by simp [h.taken], by simp [h.level],
      by simp [h.level], hout, by simpa using Nat.succ_le_of_lt hlt,
      by simpa using Nat.succ_le_of_lt hlevel⟩
  obtain ⟨w', hw', hreached⟩ := hholding.prepare hlen (by simpa using hnode)
  refine ⟨_, w', rfl, hw', hreached, ?_⟩
  rw [hreached.level, h.level, Climb.above_push, List.length_append, List.length_singleton]

/-- The longest n-gram is looked up with the whole context in front of the last hit. -/
theorem Reached.lookLongest {c : Climb} (h : Reached s context word c w) {older : Word}
    (holder : context[c.above.length]? = some older) (horder : c.above.length + 2 = s.order)
    (hind : c.last.independentLeft = false) :
    ∃ score, w.lookLongest s = .ok { w with score } ∧
      score = (c.complete s context).score s.order context.length := by
  have hlt := (List.getElem?_eq_some_iff.1 holder).1
  have hnode := h.located older holder
  rw [if_pos horder] at hnode
  have hword : w.context[w.taken]? = some older := by rw [h.taken, h.agrees _ hlt, holder]
  have hlook : w.lookLongest s =
      .ok (w.takeLongest s.order (s.longestProb c.last.extendLeft older)) := by
    unfold Walk.lookLongest
    rw [hword, ← hnode]
  rw [Climb.complete_of_longest holder hind horder, hlook]
  generalize s.longestProb c.last.extendLeft older = found
  cases found with
  | some p =>
    refine ⟨_, rfl, ?_⟩
    rw [h.score]
    rfl
  | none =>
    refine ⟨_, rfl, ?_⟩
    rw [h.score]
    simp [Climb.score, Climb.last, Score.ofHit, hlt]

/-- The second phase asks the table for what the first one located. -/
theorem Reached.complete_eq {c : Climb} (h : Reached s context word c w) {older : Word}
    (holder : context[c.above.length]? = some older) (horder : c.above.length + 2 ≠ s.order) :
    w.node = combine c.last.extendLeft older ∧
      s.complete w.level w.node w.cursor = .ok (s.middleHit c.above.length w.node) := by
  have hloc := h.located older holder
  rw [if_neg horder] at hloc
  obtain ⟨hnode, t, ht, hcursor⟩ := hloc
  refine ⟨hnode, ?_⟩
  simp only [Store.complete, Store.middleHit, h.level, ht, hcursor, Option.bind_some]
  rfl

/-- **One step of a walk.** Either the next n-gram is there and the walk reaches it, or the walk
ends with the climb as it stands. -/
theorem Reached.step {c : Climb} (h : Reached s context word c w)
    (hlen : context.length ≤ s.order - 1) :
    (∃ hit w', w.step s = .ok (.waiting, w') ∧ Reached s context word (c.push hit) w' ∧
      w'.level = w.level + 1 ∧ c.complete s context = (c.push hit).complete s context) ∨
    (∃ w', w.step s = .ok (.done, w') ∧ Ended s context word (c.complete s context) w' ∧
      w'.level = w.level ∧ (c.complete s context).above = c.above) := by
  have hmiddle := s.middle_size
  have habove := h.above_le
  unfold Walk.step
  rw [if_neg (by rw [h.finished]; exact Bool.false_ne_true)]
  by_cases hstop : w.taken = w.contextLength ∨ w.score.independentLeft = true
  · -- the context is used up, or nothing longer ends in the last hit
    rw [if_pos hstop]
    rw [h.taken, h.contextLength, h.score] at hstop
    have hcomplete := Climb.complete_of_stop (s := s) hstop
    have hscore : w.score = (c.complete s context).score s.order context.length := by
      rw [hcomplete, h.score]
      rcases hstop with hend | hind
      · simp [Climb.score, Climb.last, Score.ofHit, hend]
      · have hind' : c.last.independentLeft = true := hind
        simp [Climb.score, Climb.last, Score.ofHit] at hind' ⊢
        simp [hind']
    obtain ⟨w', hw', hend, hlev⟩ := h.finishStep (by rw [hcomplete]) (by rw [hcomplete]) hscore
    exact Or.inr ⟨w', hw', hend, hlev, by rw [hcomplete]⟩
  · rw [if_neg hstop]
    rw [h.taken, h.contextLength, h.score, not_or] at hstop
    have hlt : c.above.length < context.length := by omega
    have holder := List.getElem?_eq_getElem hlt
    have hind : c.last.independentLeft = false := by simpa [Score.ofHit] using hstop.2
    -- at the highest order the walk ends either way, below it where the next n-gram is missing
    by_cases horder : w.level + 2 = s.order
    · rw [if_pos horder]
      rw [h.level] at horder
      obtain ⟨score, hlook, hscore⟩ := h.lookLongest holder horder hind
      have hcomplete := Climb.complete_of_longest holder hind horder
      obtain ⟨w', hw', hend, hlev⟩ := h.finishStep (by rw [hcomplete]) (by rw [hcomplete]) hscore
      refine Or.inr ⟨w', ?_, hend, hlev, by rw [hcomplete]⟩
      simp only [hlook, hw']
    · rw [if_neg horder]
      rw [h.level] at horder
      obtain ⟨hnode, hfound⟩ := h.complete_eq holder horder
      rw [hfound]
      cases hhit : s.middleHit c.above.length w.node with
      | none =>
        rw [hnode] at hhit
        have hcomplete := Climb.complete_of_miss holder hind horder hhit
        have hscore : { w.score with independentLeft := true } =
            (c.complete s context).score s.order context.length := by
          rw [hcomplete, h.score]
          simp [Climb.score, Climb.last, Score.ofHit, hlt]
        obtain ⟨w', hw', hend, hlev⟩ :=
          h.finishStep (by rw [hcomplete]) (by rw [hcomplete]) hscore
        exact Or.inr ⟨w', hw', hend, hlev, by rw [hcomplete]⟩
      | some hit =>
        -- the hit has the key that was looked for
        have hextend : w.node = hit.extendLeft := by
          obtain ⟨t, -, ht⟩ := Option.bind_eq_some_iff.1 hhit
          obtain ⟨e, -, rfl⟩ := Option.map_eq_some_iff.1 ht
          rfl
        obtain ⟨w₁, w', hadv, hprep, hreached, hlev⟩ :=
          h.advance hlen hlt (by omega) hextend
        rw [hnode] at hhit
        refine Or.inl ⟨hit, w', ?_, hreached, hlev,
          Climb.complete_of_hit holder hind horder hhit⟩
        simp only [hadv, hprep]

/-- A walk on its way to the climb for a word: between two steps, or at its end from the start on,
because there is no context. -/
def OnWay (s : Store) (context : List Word) (word : Word) (w : Walk) : Prop :=
  (∃ c, Reached s context word c w ∧ c.complete s context = s.climb context word) ∨
    (context = [] ∧ w.level = 0 ∧ Ended s context word (s.climb context word) w)

/-- A step of a walk on its way brings it one level up or to its end. -/
theorem OnWay.step (h : OnWay s context word w) (hlen : context.length ≤ s.order - 1) :
    (∃ w', w.step s = .ok (.waiting, w') ∧ OnWay s context word w' ∧ w'.level = w.level + 1 ∧
      w.level < (s.climb context word).above.length) ∨
    (∃ w', w.step s = .ok (.done, w') ∧ Ended s context word (s.climb context word) w' ∧
      w.level = (s.climb context word).above.length) := by
  rcases h with ⟨c, hreached, hclimb⟩ | ⟨rfl, hlev, hended⟩
  · rcases hreached.step hlen with ⟨hit, w', hstep, hnext, hlev, hsame⟩ |
      ⟨w', hstep, hended, -, habove⟩
    · refine Or.inl ⟨w', hstep, Or.inl ⟨_, hnext, hsame.symm.trans hclimb⟩, hlev, ?_⟩
      rw [hreached.level, ← hclimb, hsame, Climb.complete, Climb.above_push]
      simp only [List.length_append, List.length_singleton]
      omega
    · rw [hclimb] at hended habove
      exact Or.inr ⟨w', hstep, hended, by rw [hreached.level, habove]⟩
  · refine Or.inr ⟨w, ?_, hended, by rw [hlev]; rfl⟩
    unfold Walk.step
    rw [if_pos hended.finished]

/-- The state behind the single word, before any context word is taken in. -/
theorem unigramState_eq (order : Nat) (word : Word) (hit : Hit) :
    unigramState order word hit = Climb.underWay order word { base := hit } := by
  unfold unigramState Climb.underWay
  split
  next =>
    have hbackoffs : State.empty.backoffs.set 0 hit.backoff =
        overwrite State.empty.backoffs (Climb.backoffs { base := hit }) := by
      ext i hi
      rw [getElem_overwrite]
      cases i with
      | zero => rfl
      | succ i => simp [Climb.backoffs]
    have hkept :
        (Climb.kept { base := hit }).length = if hasExtension hit.backoff then 1 else 0 := by
      rw [Climb.kept, List.rdropWhile_singleton]
      cases hasExtension hit.backoff with
      | true => rfl
      | false => rfl
    rw [hbackoffs, hkept]
  next => rfl

theorem getElem?_overwrite {n i : Nat} {α : Type} (buffer : Vector α n) (front : List α)
    (hi : i < front.length) (hn : front.length ≤ n) : (overwrite buffer front)[i]? = front[i]? := by
  rw [Vector.getElem?_eq_getElem (by omega), getElem_overwrite, List.getElem?_eq_getElem hi]
  rfl

theorem unigram_eq (hword : word.toNat < s.unigrams.size) :
    s.unigram word = .ok (s.wordHit word) := by
  simp only [Store.unigram, Store.wordHit, Array.getElem?_eq_getElem hword, Option.getD_some]

/-- A walk that was set back holds the hit of the single word. -/
theorem restart_holding (w : Walk) (context : List Word) (hit : Hit)
    (hlen : context.length ≤ contextSize) :
    Holding s context word { base := hit } (w.restart s.order context word hit) :=
  ⟨rfl, fun _ hi => getElem?_overwrite _ _ hi hlen, rfl, rfl, rfl, rfl, unigramState_eq _ _ _,
    Nat.zero_le _, Nat.zero_le _⟩

/-- Starting a walk, whatever it did before, sets it on its way. -/
theorem start_eq (w : Walk) (context : List Word) (hword : word.toNat < s.unigrams.size) :
    ∃ step w', w.start s context word = .ok (step, w') ∧ w'.level = 0 ∧
      OnWay s (context.take (s.order - 1)) word w' ∧
      (step = .done → Ended s (context.take (s.order - 1)) word
        (s.climb (context.take (s.order - 1)) word) w') := by
  have horder : s.order ≤ contextSize + 1 := s.order_le
  have hlen : (context.take (s.order - 1)).length ≤ s.order - 1 := List.length_take_le _ _
  unfold Walk.start
  dsimp only
  rw [if_pos (by omega), unigram_eq hword]
  dsimp only
  generalize context.take (s.order - 1) = context at hlen
  have hholding : Holding s context word { base := s.wordHit word } _ :=
    restart_holding w context (s.wordHit word) (by omega)
  have hnode : (w.restart s.order context word (s.wordHit word)).node =
      (s.wordHit word).extendLeft := rfl
  generalize w.restart s.order context word (s.wordHit word) = w₁ at hholding hnode
  have hlevel : w₁.level = 0 := hholding.level
  have htaken : w₁.taken = 0 := hholding.taken
  rw [hholding.contextLength]
  -- without any context the walk is at its end from the start on
  by_cases hempty : context.length = 0
  · rw [if_pos hempty]
    obtain rfl := List.length_eq_zero_iff.1 hempty
    have hclimb : s.climb [] word = { base := s.wordHit word } :=
      Climb.complete_of_stop (Or.inl rfl)
    have hscore : w₁.score = (s.climb [] word).score s.order 0 := by
      rw [hclimb, hholding.score]
      simp [Climb.score, Climb.last, Score.ofHit]
    obtain ⟨w', hw', hended, hlev⟩ :=
      hholding.finishStep (by rw [hclimb]) (by rw [hclimb]) hscore
    exact ⟨.done, w', hw', hlev.trans hlevel, Or.inr ⟨rfl, hlev.trans hlevel, hended⟩,
      fun _ => hended⟩
  · rw [if_neg hempty]
    obtain ⟨w', hprep, hreached⟩ := hholding.prepare hlen hnode
    have honway : OnWay s context word w' := Or.inl ⟨_, hreached, rfl⟩
    -- starting does what preparing does, but with the order to decide instead of the level
    unfold Walk.prepare at hprep
    rw [htaken, hholding.contextLength, hlevel] at hprep
    split
    next htwo =>
      rw [if_pos (by omega)] at hprep
      rw [hprep]
      exact ⟨.waiting, w', rfl, hreached.level, honway, fun h => by cases h⟩
    next htwo =>
      rw [if_neg (by omega)] at hprep
      cases hprep
      exact ⟨.waiting, w₁, rfl, hlevel, honway, fun h => by cases h⟩

theorem run_of_done {w' : Walk} (h : w.step s = .ok (.done, w')) : w.run s = .ok w' := by
  rw [Walk.run]
  split
  next h' => rw [h] at h'; cases h'
  next h' => rw [h] at h'; cases h'; rfl
  next h' => rw [h] at h'; cases h'

theorem run_of_waiting {w' : Walk} (h : w.step s = .ok (.waiting, w')) :
    w.run s = w'.run s := by
  conv_lhs => rw [Walk.run]
  split
  next h' => rw [h] at h'; cases h'
  next h' => rw [h] at h'; cases h'
  next h' => rw [h] at h'; cases h'; rfl

/-- A walk is done at its `n`-th step, and at none before. -/
inductive DoneIn (s : Store) : Walk → Nat → Walk → Prop where
  | last {w w' : Walk} (h : w.step s = .ok (.done, w')) : DoneIn s w 1 w'
  | more {w w₁ w' : Walk} {n : Nat} (h : w.step s = .ok (.waiting, w₁)) (hw : DoneIn s w₁ n w') :
    DoneIn s w (n + 1) w'

theorem DoneIn.run {n : Nat} {w' : Walk} (h : DoneIn s w n w') : w.run s = .ok w' := by
  induction h with
  | last h => exact run_of_done h
  | more h _ ih => rw [run_of_waiting h, ih]

/-- A walk on its way ends with the whole climb, behind a step for each level that is left and one
more. The induction is on these levels. -/
theorem OnWay.doneIn (h : OnWay s context word w) (hlen : context.length ≤ s.order - 1) :
    ∃ w', DoneIn s w ((s.climb context word).above.length - w.level + 1) w' ∧
      Ended s context word (s.climb context word) w' := by
  generalize hleft : (s.climb context word).above.length - w.level = left
  induction left generalizing w with
  | zero =>
    rcases h.step hlen with ⟨w', -, -, -, hlt⟩ | ⟨w', hstep, hended, -⟩
    · omega
    · exact ⟨w', .last hstep, hended⟩
  | succ left ih =>
    rcases h.step hlen with ⟨w₁, hstep, hnext, hlev, hlt⟩ | ⟨w', -, -, hlev⟩
    · obtain ⟨w', hdone, hended⟩ := ih hnext (by omega)
      exact ⟨w', .more hstep hdone, hended⟩
    · omega

theorem OnWay.run (h : OnWay s context word w) (hlen : context.length ≤ s.order - 1) :
    ∃ w', w.run s = .ok w' ∧ Ended s context word (s.climb context word) w' := by
  obtain ⟨w', hdone, hended⟩ := h.doneIn hlen
  exact ⟨w', hdone.run, hended⟩

/-- **The machine computes the recursion.** For any context and any word of the vocabulary a walk,
whatever it did before, ends with the score and the state of the climb behind as much of the context
as the order allows. -/
theorem scoreWord_eq (w : Walk) (context : List Word) (hword : word.toNat < s.unigrams.size) :
    ∃ w', w.scoreWord s context word = .ok w' ∧
      Ended s (context.take (s.order - 1)) word (s.climb (context.take (s.order - 1)) word) w' := by
  obtain ⟨step, w₁, hstart, -, honway, hdone⟩ := start_eq w context hword
  unfold Walk.scoreWord
  rw [hstart]
  cases step with
  | done => exact ⟨w₁, rfl, hdone rfl⟩
  | waiting => exact honway.run (List.length_take_le _ _)

end Ends

end Walk

end Ngram
