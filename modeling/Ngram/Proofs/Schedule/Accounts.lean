import Ngram.Proofs.Schedule.Feeding
import Ngram.Proofs.Schedule.Moves

/-!
# No sentence is lost, and none is scored twice

Which slot is busy with which sentence depends on when each search happens to end, and the scores
grow while slots are at work. What every move keeps is `Accounted`: the slots that were fed are busy
or idle as the place says, and the number of each sentence that has begun is either the number of
one busy slot, or was written once.

> `Accounted.move`: every move keeps the accounts.
> `Accounted.steady`, `Accounted.finished`: what they say between two turns, and at the end.
> `Ring.schedule_exact`: so every sentence is written once, and none but busy slots are stepped.
-/

namespace Ngram

theorem Slot.live_step {m : Model} {s s' : Slot} {p : Progress} (h : s.step m = .ok (p, s')) :
    s'.live = s.live := by
  obtain ⟨walk, score, state, rfl⟩ := step_frame h
  rfl

theorem Slot.index_step {m : Model} {s s' : Slot} {p : Progress} (h : s.step m = .ok (p, s')) :
    s'.index = s.index := by
  obtain ⟨walk, score, state, rfl⟩ := step_frame h
  rfl

namespace Run

/-- Counts a slot that is busy with sentence number `j`. -/
def busyWith (j : Nat) (s : Slot) : Nat := if s.live = true ∧ s.index = j then 1 else 0

/-- Slot `i` of the first `width` is busy with sentence number `j`. -/
def HeldBy (slots : Array Slot) (width j i : Nat) : Prop :=
  i < width ∧ ∃ s, slots[i]? = some s ∧ s.live = true ∧ s.index = j

/-- None of the first slots is busy. -/
def Idle (width : Nat) (slots : Array Slot) : Prop :=
  ∀ i < width, ∀ s, slots[i]? = some s → s.live = false

section Counts

variable {slots : Array Slot} {s s' : Slot} {i j k width : Nat}

theorem busyWith_of_idle (j : Nat) (h : s.live = false) : busyWith j s = 0 := by
  simp [busyWith, h]

theorem busyWith_of_live (j : Nat) (h : s.live = true) :
    busyWith j s = if s.index = j then 1 else 0 := by
  simp [busyWith, h]

theorem busyWith_congr (j : Nat) (hlive : s'.live = s.live) (hindex : s'.index = s.index) :
    busyWith j s' = busyWith j s := by
  rw [busyWith, busyWith, hlive, hindex]

theorem HeldBy.pos (h : HeldBy slots width j i) : 0 < total (busyWith j) slots width := by
  obtain ⟨hi, s, hs, hlive, hindex⟩ := h
  -- taken out of the count, the slot leaves one less
  have hput := total_put (busyWith j) s.retire hi hs
  rw [busyWith_of_live j hlive, if_pos hindex, busyWith_of_idle j (s := s.retire) rfl] at hput
  omega

theorem exists_heldBy (h : 0 < total (busyWith j) slots width) : ∃ i, HeldBy slots width j i := by
  obtain ⟨n, hn, hpos⟩ := List.sum_pos_iff_exists_pos_nat.1 h
  obtain ⟨s, hs, rfl⟩ := List.mem_map.1 hn
  obtain ⟨i, hi⟩ := List.mem_iff_getElem?.1 hs
  rw [List.getElem?_take] at hi
  split at hi
  next hlt =>
    rw [busyWith] at hpos
    obtain ⟨hlive, hindex⟩ : s.live = true ∧ s.index = j := by
      by_contra hnot
      rw [if_neg hnot] at hpos
      exact Nat.lt_irrefl 0 hpos
    exact ⟨i, hlt, s, by rw [← Array.getElem?_toList, hi], hlive, hindex⟩
  next => cases hi

theorem HeldBy.unique (hone : total (busyWith j) slots width ≤ 1) (hi : HeldBy slots width j i)
    (hk : HeldBy slots width j k) : i = k := by
  by_contra hne
  obtain ⟨hlt, s, hs, hlive, hindex⟩ := hi
  obtain ⟨hk, t, ht⟩ := hk
  -- without slot `i` the other one is still counted
  have hother : HeldBy (put slots i s.retire) width j k :=
    ⟨hk, t, by rw [getElem?_put_ne hne, ht.1], ht.2⟩
  have hpos := hother.pos
  have hput := total_put (busyWith j) s.retire hlt hs
  rw [busyWith_of_live j hlive, if_pos hindex, busyWith_of_idle j (s := s.retire) rfl] at hput
  omega

theorem Busy.live (h : Busy width slots) (hi : i < width) (hs : slots[i]? = some s) :
    s.live = true := by
  obtain ⟨t, ht, hlive⟩ := h i hi
  rw [hs] at ht
  cases ht
  exact hlive

theorem Idle.succ (h : Idle width slots) (hs : slots[width]? = some s) (hidle : s.live = false) :
    Idle (width + 1) slots := by
  intro i hi t ht
  rcases Nat.lt_succ_iff_lt_or_eq.1 hi with hlt | rfl
  · exact h i hlt t ht
  · rw [hs] at ht
    cases ht
    exact hidle

theorem Idle.put_outside (h : Idle width slots) (hi : width ≤ i) :
    Idle width (put slots i s') := by
  intro j hj s hs
  rw [getElem?_put_ne (by omega)] at hs
  exact h j hj s hs

theorem Idle.total_eq_zero (h : Idle width slots) (j : Nat) :
    total (busyWith j) slots width = 0 := by
  by_contra hne
  obtain ⟨i, hi, s, hs, hlive, -⟩ := exists_heldBy (Nat.pos_of_ne_zero hne)
  rw [h i hi s hs] at hlive
  cases hlive

end Counts

/-- A number that is written is taken out of a count and put into the log. -/
theorem count_concat_add {log : List Nat} {k j n before after more : Nat}
    (hj : log.count j + before = n) (hput : after + (if k = j then 1 else 0) = before + more) :
    (log ++ [k]).count j + after = n + more := by
  have hcount : (log ++ [k]).count j = log.count j + if k = j then 1 else 0 := by
    simp [List.count_append, List.count_singleton]
  omega

/-- One more number given out, as a count. -/
theorem below_succ (n j : Nat) :
    (if j < n + 1 then 1 else 0) = (if j < n then 1 else 0) + if n = j then 1 else 0 := by
  split_ifs <;> omega

/-- What a place says of the slots. -/
def Place.Placed (slots : Array Slot) : Place → Prop
  | .filling i => i ≤ slots.size ∧ Busy i slots
  | .serving width i => width = slots.size ∧ i < width ∧ Busy width slots
  | .draining width i => i ≤ width ∧ width ≤ slots.size ∧ Idle i slots
  | .finishing width i => i < width ∧ width ≤ slots.size ∧ Idle i slots ∧
      ∃ s, slots[i]? = some s ∧ s.live = true

/-- The accounts of a run that has written the scores with the numbers of a log: each number that
was given out so far is in the log or with a busy slot, in one of them and once. -/
structure Accounted (p : Place) (run : Run) (log : List Nat) : Prop where
  placed : p.Placed run.slots
  owned : ∀ j, log.count j + total (busyWith j) run.slots p.width =
    if j < run.report.scores.size then 1 else 0

section Accounts

variable {m : Model} {start run run' : Run} {p p' : Place} {w : Option Nat} {log : List Nat}
  {s s' t : Slot} {items rest : List Item} {i j width : Nat} {r report : Report}

theorem live_of_enter (hfeed : s.feed m items = (.ok .ready, t, rest))
    (henter : enter m r t = .ok (report, s')) : s'.live = true := by
  obtain ⟨words, hsentence, -, rfl⟩ := Slot.feed_ready_iff.1 hfeed
  rw [(enter_frame henter).2.2]
  simpa [Slot.holding] using hsentence.ends.ne_nil

/-- A step inside a sentence changes no count. -/
theorem total_put_step {q : Progress} (hi : i < width) (hs : run.slots[i]? = some s)
    (hstep : s.step m = .ok (q, s')) (j : Nat) :
    total (busyWith j) (put run.slots i s') width = total (busyWith j) run.slots width := by
  have hput := total_put (busyWith j) s' hi hs
  rw [busyWith_congr j (Slot.live_step hstep) (Slot.index_step hstep)] at hput
  exact Nat.add_right_cancel hput

/-- The step that ends a sentence takes its number out of the counts, if the slot was busy, and the
slot is counted for what it is then used for. -/
theorem total_put_finished (hi : i < width) (hs : run.slots[i]? = some s) (hlive : s.live = true)
    (hstep : s.step m = .ok (.finished, s')) (t : Slot) (j : Nat) :
    total (busyWith j) (put run.slots i t) width + (if s'.index = j then 1 else 0) =
      total (busyWith j) run.slots width + busyWith j t := by
  have hput := total_put (busyWith j) t hi hs
  rw [busyWith_of_live j hlive] at hput
  rw [Slot.index_step hstep]
  exact hput

/-- Every move leads to a place that says of the slots what they are. -/
theorem Move.placed (hmove : Move m p run w p' run') (h : p.Placed run.slots) :
    p'.Placed run'.slots := by
  have hnext : ∀ {i width : Nat}, i < width → (if i + 1 = width then 0 else i + 1) < width := by
    intro i width hi
    split
    next => omega
    next => omega
  cases hmove with
  | fed hs hfeed henter =>
    obtain ⟨-, hbusy⟩ := h
    exact ⟨by rw [size_put]; exact (Array.getElem?_eq_some_iff.1 hs).1,
      (hbusy.put_outside (Nat.le_refl _)).succ (getElem?_put_self hs) (live_of_enter hfeed henter)⟩
  | dry hpos hs hfeed =>
    exact ⟨Nat.zero_le _, by rw [size_put]; exact h.1, fun _ hj => absurd hj (Nat.not_lt_zero _)⟩
  | full hwidth hpos => exact ⟨hwidth.symm, Nat.pos_of_ne_zero hpos, h.2⟩
  | stepped hs hstep hq =>
    obtain ⟨hwidth, hi, hbusy⟩ := h
    exact ⟨by rw [size_put]; exact hwidth, hnext hi,
      hbusy.put ((Slot.live_step hstep).trans (hbusy.live hi hs))⟩
  | reloaded hs hstep hrecord hfeed henter =>
    obtain ⟨hwidth, hi, hbusy⟩ := h
    exact ⟨by rw [size_put]; exact hwidth, hnext hi, hbusy.put (live_of_enter hfeed henter)⟩
  | ended hs hstep hrecord hfeed =>
    obtain ⟨hwidth, -, -⟩ := h
    exact ⟨Nat.zero_le _, by rw [size_put, hwidth], fun _ hj => absurd hj (Nat.not_lt_zero _)⟩
  | passed hi hs hidle =>
    obtain ⟨-, hwidth, hbefore⟩ := h
    exact ⟨hi, hwidth, hbefore.succ hs hidle⟩
  | found hi hs hlive =>
    obtain ⟨-, hwidth, hbefore⟩ := h
    exact ⟨hi, hwidth, hbefore, _, hs, hlive⟩
  | wentOn hs hstep hq =>
    obtain ⟨hi, hwidth, hbefore, t, ht, hlive⟩ := h
    rw [hs] at ht
    cases ht
    exact ⟨hi, by rw [size_put]; exact hwidth, hbefore.put_outside (Nat.le_refl _), _,
      getElem?_put_self hs, (Slot.live_step hstep).trans hlive⟩
  | finished hs hstep hrecord =>
    obtain ⟨hi, hwidth, hbefore, -⟩ := h
    exact ⟨hi, by rw [size_put]; exact hwidth,
      (hbefore.put_outside (Nat.le_refl _)).succ (getElem?_put_self hs) rfl⟩

/-- The moves go on up to the end of the run, unless it fails. -/
theorem Place.Placed.goesOn (m : Model) (h : p.Placed run.slots) : GoesOn m p run := by
  cases p with
  | filling i => exact goesOn_filling h.1
  | serving width i => exact goesOn_serving m run width i
  | draining width i => exact goesOn_draining h.1 h.2.1
  | finishing width i =>
    obtain ⟨-, -, -, s, hs, -⟩ := h
    exact goesOn_finishing hs

/-- What is stepped is busy, and one of the slots that were fed. -/
theorem Place.Placed.stepped {slots : Array Slot} (h : p.Placed slots) (hp : p.stepped = some i) :
    i < p.width ∧ ∃ s, slots[i]? = some s ∧ s.live = true := by
  cases p with
  | filling => cases hp
  | serving width k =>
    cases hp
    exact ⟨h.2.1, h.2.2 _ h.2.1⟩
  | draining => cases hp
  | finishing width k =>
    cases hp
    exact ⟨h.1, h.2.2.2⟩

theorem Place.Placed.live_of_stepped {slots : Array Slot} (h : p.Placed slots)
    (hp : p.stepped = some i) (hs : slots[i]? = some s) : i < p.width ∧ s.live = true := by
  obtain ⟨hi, t, ht, hlive⟩ := h.stepped hp
  rw [hs] at ht
  cases ht
  exact ⟨hi, hlive⟩

theorem accounted_start (slots : Array Slot) (items : List Item) :
    Accounted (.filling 0) ⟨slots, items, {}⟩ [] :=
  ⟨⟨Nat.zero_le _, fun _ hi => absurd hi (Nat.not_lt_zero _)⟩, fun _ => rfl⟩

/-- **Every move keeps the accounts.** -/
theorem Accounted.move (h : Accounted p run log) (hmove : Move m p run w p' run') :
    Accounted p' run' (log ++ w.toList) := by
  refine ⟨hmove.placed h.placed, fun j => ?_⟩
  have hj := h.owned j
  have hstepped : ∀ {i s}, p.stepped = some i → run.slots[i]? = some s →
      i < p.width ∧ s.live = true := h.placed.live_of_stepped
  cases hmove with
  | fed hs hfeed henter =>
    rw [size_enter henter, below_succ, ← hj]
    simp only [Place.width, Option.toList_none, List.append_nil]
    rw [total_succ (getElem?_put_self hs), total_put_outside (Nat.le_refl _),
      busyWith_of_live j (live_of_enter hfeed henter), (enter_frame henter).2.1, Nat.add_assoc]
  | dry hpos hs hfeed =>
    simp only [Place.width, Option.toList_none, List.append_nil] at hj ⊢
    rw [total_put_outside (Nat.le_refl _)]
    exact hj
  | full hwidth hpos =>
    rw [Option.toList_none, List.append_nil]
    exact hj
  | stepped hs hstep hq =>
    rw [Option.toList_none, List.append_nil]
    exact (congrArg (log.count j + ·) (total_put_step (hstepped rfl hs).1 hs hstep j)).trans hj
  | @reloaded _ width i s s' t t' items report report' hs hstep hrecord hfeed henter =>
    obtain ⟨hi, hlive⟩ := hstepped rfl hs
    have hput := total_put_finished hi hs hlive hstep t' j
    have hsize : report.scores.size = run.report.scores.size := (size_record hrecord :)
    rw [busyWith_of_live j (live_of_enter hfeed henter), (enter_frame henter).2.1, hsize] at hput
    rw [Option.toList_some, size_enter henter, hsize, below_succ]
    exact count_concat_add hj hput
  | @ended _ width i s s' t items report hs hstep hrecord hfeed =>
    obtain ⟨hi, hlive⟩ := hstepped rfl hs
    obtain ⟨-, -, rfl⟩ := Slot.feed_exhausted_iff.1 hfeed
    have hput := total_put_finished hi hs hlive hstep (s'.retire.holding []) j
    have hsize : report.scores.size = run.report.scores.size := (size_record hrecord :)
    rw [busyWith_of_idle j (s := s'.retire.holding []) rfl] at hput
    rw [Option.toList_some, hsize]
    exact count_concat_add hj hput
  | passed hi hs hidle =>
    rw [Option.toList_none, List.append_nil]
    exact hj
  | found hi hs hlive =>
    rw [Option.toList_none, List.append_nil]
    exact hj
  | wentOn hs hstep hq =>
    rw [Option.toList_none, List.append_nil]
    exact (congrArg (log.count j + ·) (total_put_step (hstepped rfl hs).1 hs hstep j)).trans hj
  | @finished _ width i s s' report hs hstep hrecord =>
    obtain ⟨hi, hlive⟩ := hstepped rfl hs
    have hput := total_put_finished hi hs hlive hstep s'.retire j
    have hsize : report.scores.size = run.report.scores.size := (size_record hrecord :)
    rw [busyWith_of_idle j (s := s'.retire) rfl] at hput
    rw [Option.toList_some, hsize]
    exact count_concat_add hj hput

theorem Move.size_eq (h : Move m p run w p' run') : run'.slots.size = run.slots.size := by
  cases h with
  | fed => exact size_put
  | dry => exact size_put
  | full => rfl
  | stepped => exact size_put
  | reloaded => exact size_put
  | ended => exact size_put
  | passed => rfl
  | found => rfl
  | wentOn => exact size_put
  | finished => exact size_put

theorem Reaches.size_eq (h : Reaches m start p run log) : run.slots.size = start.slots.size := by
  induction h with
  | start => rfl
  | move _ hmove ih => exact hmove.size_eq.trans ih

theorem Reaches.accounted {slots : Array Slot} {items : List Item}
    (h : Reaches m ⟨slots, items, {}⟩ p run log) : Accounted p run log := by
  induction h with
  | start => exact accounted_start slots items
  | move _ hmove ih => exact ih.move hmove

/-- What holds between the turns of a ring of some depth, when the scores with the numbers of a log
have been written. -/
structure Steady (depth : Nat) (run : Run) (log : List Nat) : Prop where
  size_eq : run.slots.size = depth
  busy : ∀ s ∈ run.slots, s.live = true ∧ s.index < run.report.scores.size
  distinct : ∀ (i k : Nat) (s t : Slot), run.slots[i]? = some s → run.slots[k]? = some t →
    s.index = t.index → i = k
  held_or_written : ∀ j < run.report.scores.size,
    (∃! i, HeldBy run.slots depth j i) ∧ log.count j = 0 ∨
      (∀ i, ¬ HeldBy run.slots depth j i) ∧ log.count j = 1

theorem Accounted.steady (h : Accounted (.serving width i) run log) :
    Steady run.slots.size run log := by
  obtain ⟨⟨rfl, -, hbusy⟩, howned⟩ := h
  have hheld : ∀ {k s}, run.slots[k]? = some s → HeldBy run.slots run.slots.size s.index k := by
    intro k s hs
    have hlt := (Array.getElem?_eq_some_iff.1 hs).1
    exact ⟨hlt, s, hs, hbusy.live hlt hs, rfl⟩
  have hone : ∀ j, total (busyWith j) run.slots run.slots.size ≤ 1 := by
    intro j
    have hj := howned j
    simp only [Place.width] at hj
    split_ifs at hj <;> omega
  refine ⟨rfl, fun s hs => ?_, fun k l s t hs ht hindex => ?_, fun j hj => ?_⟩
  · obtain ⟨k, hk⟩ := Array.mem_iff_getElem?.1 hs
    refine ⟨hbusy.live (Array.getElem?_eq_some_iff.1 hk).1 hk, ?_⟩
    -- a number that was not given out is not counted anywhere
    by_contra hlt
    have hindex := howned s.index
    rw [if_neg hlt] at hindex
    have hpos := (hheld hk).pos
    simp only [Place.width] at hindex
    omega
  · refine (hheld hs).unique (hone _) ?_
    rw [hindex]
    exact hheld ht
  · have hcount := howned j
    rw [if_pos hj] at hcount
    simp only [Place.width] at hcount
    by_cases hzero : total (busyWith j) run.slots run.slots.size = 0
    · exact Or.inr ⟨fun k hk => absurd hk.pos (by omega), by omega⟩
    · obtain ⟨k, hk⟩ := exists_heldBy (Nat.pos_of_ne_zero hzero)
      exact Or.inl ⟨⟨k, hk, fun l hl => hl.unique (hone j) hk⟩, by omega⟩

/-- When the stream ends, one slot is retired, and the others stay busy. -/
theorem Move.retires_one {n : Nat} (h : Move m (.serving width i) run w (.draining n j) run')
    (hplaced : (Place.serving width i).Placed run.slots) :
    n = run.slots.size ∧ j = 0 ∧
      ∃! k, k < n ∧ ∃ s, run'.slots[k]? = some s ∧ s.live = false := by
  obtain ⟨hwidth, hi, hbusy⟩ := hplaced
  cases h with
  | @ended _ _ _ s s' t items report hs hstep hrecord hfeed =>
    obtain ⟨-, -, rfl⟩ := Slot.feed_exhausted_iff.1 hfeed
    refine ⟨hwidth, rfl, i, ⟨hi, _, getElem?_put_self hs, rfl⟩, fun k hk => ?_⟩
    obtain ⟨hk, t, ht, hidle⟩ := hk
    by_contra hne
    rw [getElem?_put_ne fun h => hne h.symm] at ht
    rw [hbusy.live hk ht] at hidle
    cases hidle

/-- When the stream ends before all slots are fed, those that were fed are busy. -/
theorem Move.dry_busy {n : Nat} (h : Move m (.filling i) run w (.draining n j) run')
    (hplaced : (Place.filling i).Placed run.slots) : n = i ∧ j = 0 ∧ Busy n run'.slots := by
  cases h with
  | dry hpos hs hfeed => exact ⟨rfl, rfl, hplaced.2.put_outside (Nat.le_refl _)⟩

/-- At the end no slot is busy, and every number that was given out is in the log once. -/
theorem Accounted.finished (h : Accounted (.draining width width) run log) :
    Idle width run.slots ∧ ∀ j, log.count j = if j < run.report.scores.size then 1 else 0 := by
  obtain ⟨⟨-, -, hidle⟩, howned⟩ := h
  refine ⟨hidle, fun j => ?_⟩
  rw [← howned j, Place.width, hidle.total_eq_zero j, Nat.add_zero]

end Accounts

end Run

namespace Ring

open Run

/-- **The schedule is exact.** Take any ring, whatever its slots did before, and any stream, and
follow the run move by move, with a log of the numbers of the scores that are written.

The places are those that the run passes: it goes on from each one to its own outcome, and this by a
move, unless it is at its end or fails. Between any two turns all slots of the ring are busy, with
different sentences, and each number that was given out is either that of exactly one of them and
not in the log, or of none and in the log once. When the stream ends there, exactly one slot is
retired; if it ends while the slots are first fed, none of those that were fed is. Only busy slots
are stepped, and none behind those that were fed. A move writes the score of the sentence that it
finished, under its number, and no other. At the end no slot that was fed is busy, and each number
that was given out is in the log once; and a run that succeeds gets there. -/
theorem schedule_exact (m : Model) (ring : Ring) (items : List Item) :
    let start : Run := ⟨ring.slots, items, {}⟩
    (∀ p run log, Reaches m start p run log →
      (remaining m run p).outcome = (complete m start).outcome ∧ GoesOn m p run) ∧
    (∀ width i run log, Reaches m start (.serving width i) run log →
      width = ring.depth ∧ i < width ∧ Steady ring.depth run log ∧
      ∀ w n k run', Move m (.serving width i) run w (.draining n k) run' →
        n = ring.depth ∧ k = 0 ∧ ∃! l, l < n ∧ ∃ s, run'.slots[l]? = some s ∧ s.live = false) ∧
    (∀ i run log, Reaches m start (.filling i) run log →
      ∀ w n k run', Move m (.filling i) run w (.draining n k) run' →
        n = i ∧ k = 0 ∧ Busy n run'.slots) ∧
    (∀ p run log i, Reaches m start p run log → p.stepped = some i →
      i < p.width ∧ ∃ s, run.slots[i]? = some s ∧ s.live = true) ∧
    (∀ p run w p' run', Move m p run w p' run' → ∀ j,
      (j < run.report.scores.size → w ≠ some j →
        run'.report.scores[j]? = run.report.scores[j]?) ∧
      (w = some j → ∃ i s s', p.stepped = some i ∧ run.slots[i]? = some s ∧
        s.step m = .ok (.finished, s') ∧ s'.index = j ∧
        run'.report.scores[j]? = some s'.score)) ∧
    (∀ width run log, Reaches m start (.draining width width) run log →
      Idle width run.slots ∧ ∀ j, log.count j = if j < run.report.scores.size then 1 else 0) ∧
    (∀ report, (ring.score m items).1 = .ok report →
      ∃ width run log, Reaches m start (.draining width width) run log ∧ run.report = report) := by
  intro start
  refine ⟨fun p run log h => ⟨h.outcome_eq, h.accounted.placed.goesOn m⟩,
    fun width i run log h => ?_,
    fun i run log h w n k run' hmove => hmove.dry_busy h.accounted.placed,
    fun p run log i h hp => h.accounted.placed.stepped hp,
    fun p run w p' run' hmove j => ⟨hmove.getElem?_scores, ?_⟩,
    fun width run log h => h.accounted.finished, fun report hscore => ?_⟩
  · have hsize : run.slots.size = ring.depth := h.size_eq
    have hplaced := h.accounted.placed
    refine ⟨hplaced.1.trans hsize, hplaced.2.1, hsize ▸ h.accounted.steady, ?_⟩
    intro w n k run' hmove
    obtain ⟨hn, hk, hone⟩ := hmove.retires_one hplaced
    exact ⟨hn.trans hsize, hk, hone⟩
  · rintro rfl
    exact hmove.getElem?_written
  · unfold score at hscore
    split at hscore
    next run hrun =>
      cases hscore
      obtain ⟨width, log, hend⟩ := reaches_end hrun
      exact ⟨width, run, log, hend, rfl⟩
    next => cases hscore

/-- Three sentences in a ring of two slots that a failed run left: with both slots fed, both are
busy; and the run gets to an end at which each of the three numbers is in the log once. -/
theorem schedule_exact_three :
    let ring : Ring := ⟨#[Slot.idle flatModel 5, { Slot.idle flatModel 5 with live := true }]⟩
    let start : Run := ⟨ring.slots, [[0, 2], [2], [1, 0, 2]].flatten.map .ok, {}⟩
    (∃ run, Reaches flatModel start (.serving 2 0) run [] ∧ Steady 2 run [] ∧
      run.report.scores.size = 2) ∧
    ∃ width run log, Reaches flatModel start (.draining width width) run log ∧
      run.report.scores.size = 3 ∧ Idle width run.slots ∧
      log.count 0 = 1 ∧ log.count 1 = 1 ∧ log.count 2 = 1 ∧ log.count 3 = 0 := by
  intro ring start
  obtain ⟨-, hserving, -, -, -, hend, hreached⟩ := schedule_exact flatModel ring
    ([[0, 2], [2], [1, 0, 2]].flatten.map .ok)
  constructor
  · have hfirst : Reaches flatModel start (.filling 1) _ [] :=
      Reaches.start.move (.fed rfl rfl rfl)
    have hsecond := hfirst.move (.fed rfl rfl rfl)
    have hfull := hsecond.move (.full rfl (Nat.succ_ne_zero 1))
    exact ⟨_, hfull, (hserving _ _ _ _ hfull).2.2.1, rfl⟩
  · have hscore : (ring.score flatModel ([[0, 2], [2], [1, 0, 2]].flatten.map .ok)).1 =
        flatModel.scoreStream 5 ([[0, 2], [2], [1, 0, 2]].flatten.map .ok) :=
      score_eq_stream (by simp [ring, Slot.idle]) (by decide) _
    have hinside : ∀ s ∈ [[0, 2], [2], [1, 0, 2]], ∀ word ∈ s,
        word < flatModel.vocabulary.bound := by
      show ∀ s ∈ [[0, 2], [2], [1, 0, 2]], ∀ word ∈ s, word < (3 : Word)
      simp
    have hends : ∀ s ∈ [[0, 2], [2], [1, 0, 2]], EndsOnce flatModel.vocabulary.endSentence s := by
      simp only [List.forall_mem_cons]
      exact ⟨⟨[0], rfl, by decide⟩, ⟨[], rfl, by decide⟩, ⟨[1, 0], rfl, by decide⟩, by simp⟩
    rw [Model.scoreStream_eq_ok_iff.2 ⟨_, by simp, rfl,
      fun s hs => ⟨hends s hs, hinside s hs, by revert s; decide⟩, rfl⟩] at hscore
    obtain ⟨width, run, log, hreach, hreport⟩ := hreached _ hscore
    obtain ⟨hidle, hcount⟩ := hend _ _ _ hreach
    have hsize : run.report.scores.size = 3 := by rw [hreport]; rfl
    rw [hsize] at hcount
    exact ⟨width, run, log, hreach, hsize, hidle, hcount 0, hcount 1, hcount 2, hcount 3⟩

end Ring

end Ngram
