import Ngram.Proofs.Schedule.Interleaving

/-!
# The moves of a run

A run in small moves, so that it can be said what holds between any two of them: a slot is fed for
the first time, stepped once, fed again, or looked at once the stream has ended. Each move says
which score it writes, if any, and `Reaches` collects these in a log.

The moves are not another machine. `remaining` is what a run still does from a place on, and a move
leaves what this comes to as it was (`Move.outcome_eq`); so whatever is reached is a place that the
run passes. And a run that succeeds gets to its end by moves:

> `Reaches.outcome_eq`: the run goes on from every place that is reached to its own outcome.
> `GoesOn`: the moves stop at the end of the run, or where it fails.
> `reaches_end`: a run that succeeds reaches its end.
> `Move.getElem?_scores`, `Move.getElem?_written`: a move writes the score that it says, and no
> other.
-/

namespace Ngram

namespace Slot

variable {m : Model} {s s' : Slot}

theorem drain_of_error {e : Error} (h : s.step m = .error e) (words steps : Nat) :
    s.drain m words steps = .error e := by
  rw [drain]
  split
  next h' => rw [h] at h'; cases h'; rfl
  next h' => rw [h] at h'; cases h'
  next h' => rw [h] at h'; cases h'
  next h' => rw [h] at h'; cases h'

end Slot

namespace Run

/-- Where a run is. -/
inductive Place where
  /-- Slot `i` is to be fed for the first time. -/
  | filling (i : Nat)
  /-- Slot `i` of the first `width` has its turn. -/
  | serving (width i : Nat)
  /-- The stream has ended, and slot `i` of the first `width` is to be looked at. -/
  | draining (width i : Nat)
  /-- Slot `i` of the first `width` was found busy, and is stepped to its end. -/
  | finishing (width i : Nat)

namespace Place

/-- How many slots were fed in the run. -/
def width : Place → Nat
  | filling i => i
  | serving width _ => width
  | draining width _ => width
  | finishing width _ => width

/-- The slot that is stepped. -/
def stepped : Place → Option Nat
  | serving _ i => some i
  | finishing _ i => some i
  | _ => none

end Place

/-- A single move: from a place and the run there to the next place and the run there. In between
stands the number of the score that is written, if one is. -/
inductive Move (m : Model) : Place → Run → Option Nat → Place → Run → Prop where
  /-- A slot is fed for the first time. -/
  | fed {run : Run} {i : Nat} {s t t' : Slot} {items : List Item} {report : Report}
      (hs : run.slots[i]? = some s) (hfeed : s.feed m run.items = (.ok .ready, t, items))
      (henter : enter m run.report t = .ok (report, t')) :
      Move m (.filling i) run none (.filling (i + 1)) ⟨put run.slots i t', items, report⟩
  /-- The stream ends before all slots are fed, but not before any of them is. -/
  | dry {run : Run} {i : Nat} {s t : Slot} {items : List Item} (hpos : i ≠ 0)
      (hs : run.slots[i]? = some s) (hfeed : s.feed m run.items = (.ok .exhausted, t, items)) :
      Move m (.filling i) run none (.draining i 0) { run with slots := put run.slots i t, items }
  /-- All slots are fed. -/
  | full {run : Run} {width : Nat} (hwidth : run.slots.size = width) (hpos : width ≠ 0) :
      Move m (.filling width) run none (.serving width 0) run
  /-- A step inside a sentence. -/
  | stepped {run : Run} {width i : Nat} {s s' : Slot} {p : Progress} (hs : run.slots[i]? = some s)
      (hstep : s.step m = .ok (p, s')) (hp : p ≠ .finished) :
      Move m (.serving width i) run none (.serving width (if i + 1 = width then 0 else i + 1))
        { run with slots := put run.slots i s', report := tally run.report p }
  /-- The step that ends a sentence, whose score is written; the slot is fed the next one. -/
  | reloaded {run : Run} {width i : Nat} {s s' t t' : Slot} {items : List Item}
      {report report' : Report} (hs : run.slots[i]? = some s)
      (hstep : s.step m = .ok (.finished, s'))
      (hrecord : record (tally run.report .finished) s' = .ok report)
      (hfeed : s'.retire.feed m run.items = (.ok .ready, t, items))
      (henter : enter m report t = .ok (report', t')) :
      Move m (.serving width i) run (some s'.index)
        (.serving width (if i + 1 = width then 0 else i + 1)) ⟨put run.slots i t', items, report'⟩
  /-- The step that ends a sentence, whose score is written; the stream has ended. -/
  | ended {run : Run} {width i : Nat} {s s' t : Slot} {items : List Item} {report : Report}
      (hs : run.slots[i]? = some s) (hstep : s.step m = .ok (.finished, s'))
      (hrecord : record (tally run.report .finished) s' = .ok report)
      (hfeed : s'.retire.feed m run.items = (.ok .exhausted, t, items)) :
      Move m (.serving width i) run (some s'.index) (.draining width 0)
        ⟨put run.slots i t, items, report⟩
  /-- A slot that is not busy is passed over. -/
  | passed {run : Run} {width i : Nat} {s : Slot} (hi : i < width) (hs : run.slots[i]? = some s)
      (hidle : s.live = false) :
      Move m (.draining width i) run none (.draining width (i + 1)) run
  /-- A slot is found busy. -/
  | found {run : Run} {width i : Nat} {s : Slot} (hi : i < width) (hs : run.slots[i]? = some s)
      (hlive : s.live = true) : Move m (.draining width i) run none (.finishing width i) run
  /-- A step inside the last sentence of a slot. -/
  | wentOn {run : Run} {width i : Nat} {s s' : Slot} {p : Progress} (hs : run.slots[i]? = some s)
      (hstep : s.step m = .ok (p, s')) (hp : p ≠ .finished) :
      Move m (.finishing width i) run none (.finishing width i)
        { run with slots := put run.slots i s', report := tally run.report p }
  /-- The step that ends the last sentence of a slot, whose score is written. -/
  | finished {run : Run} {width i : Nat} {s s' : Slot} {report : Report}
      (hs : run.slots[i]? = some s) (hstep : s.step m = .ok (.finished, s'))
      (hrecord : record (tally run.report .finished) s' = .ok report) :
      Move m (.finishing width i) run (some s'.index) (.draining width (i + 1))
        { run with slots := put run.slots i s'.retire, report }

/-- What a run can reach from its start, with the numbers of the scores that it has written by then,
in this order. -/
inductive Reaches (m : Model) (start : Run) : Place → Run → List Nat → Prop where
  | start : Reaches m start (.filling 0) start []
  | move {p p' : Place} {run run' : Run} {log : List Nat} {w : Option Nat}
      (h : Reaches m start p run log) (hmove : Move m p run w p' run') :
      Reaches m start p' run' (log ++ w.toList)

/-! ## Places that a run passes -/

/-- What a run comes to, without the slots that a failure leaves. -/
def Phase.outcome : Phase → Except Error Run
  | .ok run => .ok run
  | .error (e, _) => .error e

/-- What a run still does once it is fed. -/
def afterFill (m : Model) (fed : Run × Nat × Bool) : Phase :=
  if fed.2.1 = 0 then .error (.input .noSentences, fed.1.slots)
  else do
    let run ← if fed.2.2 then .ok fed.1 else serve m fed.2.1 fed.1 0
    drain m run 0 fed.2.1

/-- What a run still does with slot `i` of the first `width` and those behind it, if that one is
busy. -/
def finishAt (m : Model) (run : Run) (width i : Nat) : Phase :=
  match run.slots[i]? with
  | none => .error (.outOfRange, run.slots)
  | some s =>
    match s.drain m run.report.words run.report.steps with
    | .error e => .error (e, run.slots)
    | .ok (s, words, steps) =>
      match record { run.report with words, steps } s with
      | .error e => .error (e, put run.slots i s)
      | .ok report =>
        drain m ⟨put run.slots i s.retire, run.items, report⟩ (i + 1) (width - (i + 1))

/-- What a run still does from a place on. -/
def remaining (m : Model) (run : Run) : Place → Phase
  | .filling i => fill m run i (run.slots.size - i) >>= afterFill m
  | .serving width i => serve m width run i >>= fun run => drain m run 0 width
  | .draining width i => drain m run i (width - i)
  | .finishing width i => finishAt m run width i

section Passed

variable {m : Model} {start run run' final : Run} {p p' : Place} {w : Option Nat} {log : List Nat}
  {s s' : Slot} {i width : Nat}

theorem remaining_start (m : Model) (run : Run) :
    remaining m run (.filling 0) = complete m run := rfl

theorem drain_of_live (hi : i < width) (hs : run.slots[i]? = some s) (hlive : s.live = true) :
    drain m run i (width - i) = finishAt m run width i := by
  rw [show width - i = width - (i + 1) + 1 by omega, drain, finishAt, hs]
  exact if_pos hlive

theorem drain_of_idle (hi : i < width) (hs : run.slots[i]? = some s) (hidle : s.live = false) :
    drain m run i (width - i) = drain m run (i + 1) (width - (i + 1)) := by
  rw [show width - i = width - (i + 1) + 1 by omega, drain, hs]
  simp only [hidle, Bool.false_eq_true, if_false]

/-- The turns of a run are its moves. -/
theorem turn_eq_of_move (h : Move m (.serving width i) run w p' run') :
    p' = .serving width (if i + 1 = width then 0 else i + 1) ∧ turn m run i = .again run' ∨
      p' = .draining width 0 ∧ turn m run i = .ended run' := by
  cases h with
  | stepped hs hstep hp =>
    refine Or.inl ⟨rfl, ?_⟩
    simp only [turn, hs, hstep]
  | reloaded hs hstep hrecord hfeed henter =>
    refine Or.inl ⟨rfl, ?_⟩
    simp only [turn, hs, hstep, reload, hrecord, hfeed, henter]
  | ended hs hstep hrecord hfeed =>
    refine Or.inr ⟨rfl, ?_⟩
    simp only [turn, hs, hstep, reload, hrecord, hfeed]

/-- A turn is a move, if it does not fail. -/
def Turn.Moved (m : Model) (width : Nat) (run : Run) (i : Nat) : Turn → Prop
  | .again run' => ∃ w, Move m (.serving width i) run w
      (.serving width (if i + 1 = width then 0 else i + 1)) run'
  | .ended run' => ∃ w, Move m (.serving width i) run w (.draining width 0) run'
  | .failed _ _ => True

theorem moved_turn (m : Model) (width : Nat) (run : Run) (i : Nat) :
    (turn m run i).Moved m width run i := by
  unfold turn
  split
  next => trivial
  next s hs =>
    split
    next => trivial
    next s' hstep =>
      unfold reload
      split
      next => trivial
      next hrecord =>
        split
        next => trivial
        next hfeed => exact ⟨_, .ended hs hstep hrecord hfeed⟩
        next hfeed =>
          split
          next => trivial
          next henter => exact ⟨_, .reloaded hs hstep hrecord hfeed henter⟩
    next p s' hp hstep => exact ⟨_, .stepped hs hstep hp⟩

/-- A step inside a sentence leaves what the slot comes to as it was. -/
theorem finishAt_of_goesOn (hs : run.slots[i]? = some s) {q : Progress}
    (hstep : s.step m = .ok (q, s')) (hq : q ≠ .finished) :
    (finishAt m run width i).outcome = (finishAt m
      { run with slots := put run.slots i s', report := tally run.report q } width i).outcome := by
  have hwords : (tally run.report q).words = run.report.words + if q = .pending then 0 else 1 := by
    simp only [tally]
    split
    next => rfl
    next => rfl
  simp only [finishAt, hs, getElem?_put_self hs, put_put, s.drain_of_goesOn hstep hq, hwords]
  simp only [tally]
  split
  next => rfl
  next =>
    split
    next => rfl
    next => rfl

theorem finishAt_of_finished (hs : run.slots[i]? = some s) {report : Report}
    (hstep : s.step m = .ok (.finished, s'))
    (hrecord : record (tally run.report .finished) s' = .ok report) :
    finishAt m run width i =
      drain m ⟨put run.slots i s'.retire, run.items, report⟩ (i + 1) (width - (i + 1)) := by
  have hrecord' : record { run.report with
      words := run.report.words + 1, steps := run.report.steps + 1 } s' = .ok report := hrecord
  simp only [finishAt, hs, s.drain_of_finished hstep, hrecord']

theorem remaining_of_turn (h : Move m (.serving width i) run w p' run') :
    remaining m run (.serving width i) = remaining m run' p' := by
  rcases turn_eq_of_move h with ⟨rfl, hturn⟩ | ⟨rfl, hturn⟩
  · rw [remaining, serve_of_again hturn]
    rfl
  · rw [remaining, serve_of_ended hturn]
    rfl

/-- **A move is part of the run**: what the run comes to is the same before and after it. -/
theorem Move.outcome_eq (h : Move m p run w p' run') :
    (remaining m run p).outcome = (remaining m run' p').outcome := by
  cases h with
  | @fed _ i _ _ _ _ _ hs hfeed henter =>
    have hi : i < run.slots.size := (Array.getElem?_eq_some_iff.1 hs).1
    simp only [remaining, size_put]
    rw [show run.slots.size - i = run.slots.size - (i + 1) + 1 by omega]
    simp only [fill, hs, hfeed, henter]
  | @dry _ i _ _ _ hpos hs hfeed =>
    have hi : i < run.slots.size := (Array.getElem?_eq_some_iff.1 hs).1
    simp only [remaining]
    rw [show run.slots.size - i = run.slots.size - (i + 1) + 1 by omega]
    simp only [fill, hs, hfeed, bind, Except.bind, afterFill, if_neg hpos, if_true, Nat.sub_zero]
  | full hwidth hpos =>
    subst hwidth
    simp only [remaining, Nat.sub_self, fill, bind, Except.bind, afterFill, if_neg hpos,
      Bool.false_eq_true, if_false]
  | stepped hs hstep hp => rw [remaining_of_turn (.stepped hs hstep hp)]
  | reloaded hs hstep hrecord hfeed henter =>
    rw [remaining_of_turn (.reloaded hs hstep hrecord hfeed henter)]
  | ended hs hstep hrecord hfeed => rw [remaining_of_turn (.ended hs hstep hrecord hfeed)]
  | passed hi hs hidle =>
    simp only [remaining]
    rw [drain_of_idle hi hs hidle]
  | found hi hs hlive =>
    simp only [remaining]
    rw [drain_of_live hi hs hlive]
  | wentOn hs hstep hp => exact finishAt_of_goesOn hs hstep hp
  | finished hs hstep hrecord =>
    simp only [remaining]
    rw [finishAt_of_finished hs hstep hrecord]

theorem Reaches.outcome_eq (h : Reaches m start p run log) :
    (remaining m run p).outcome = (complete m start).outcome := by
  induction h with
  | start => rw [remaining_start]
  | move _ hmove ih => rw [← ih, hmove.outcome_eq]

/-! ## The end of a run -/

/-- From a place there is a move, unless it is the end of the run, or the run fails. -/
def GoesOn (m : Model) (p : Place) (run : Run) : Prop :=
  (∃ w p' run', Move m p run w p' run') ∨ p = .draining p.width p.width ∨
    ∃ e, (remaining m run p).outcome = .error e

theorem goesOn_filling (hi : i ≤ run.slots.size) : GoesOn m (.filling i) run := by
  have hfails : (∃ e, (remaining m run (.filling i)).outcome = .error e) →
      GoesOn m (.filling i) run := fun h => Or.inr (Or.inr h)
  rcases Nat.lt_or_eq_of_le hi with hlt | rfl
  · have hs : run.slots[i]? = some run.slots[i] := Array.getElem?_eq_getElem hlt
    have hleft : run.slots.size - i = run.slots.size - (i + 1) + 1 := by omega
    obtain ⟨result, t, items, hfeed⟩ :
        ∃ result t items, run.slots[i].feed m run.items = (result, t, items) := ⟨_, _, _, rfl⟩
    cases result with
    | error e =>
      refine hfails ⟨e, ?_⟩
      simp only [remaining, hleft, fill, hs, hfeed]
      rfl
    | ok feed =>
      cases feed with
      | exhausted =>
        by_cases hpos : i = 0
        · refine hfails ⟨.input .noSentences, ?_⟩
          simp only [remaining, hleft, fill, hs, hfeed, bind, Except.bind, afterFill, if_pos hpos]
          rfl
        · exact Or.inl ⟨_, _, _, .dry hpos hs hfeed⟩
      | ready =>
        cases henter : enter m run.report t with
        | error e =>
          refine hfails ⟨e, ?_⟩
          simp only [remaining, hleft, fill, hs, hfeed, henter]
          rfl
        | ok entered => exact Or.inl ⟨_, _, _, .fed hs hfeed henter⟩
  · by_cases hpos : run.slots.size = 0
    · refine hfails ⟨.input .noSentences, ?_⟩
      simp only [remaining, Nat.sub_self, fill, bind, Except.bind, afterFill, if_pos hpos]
      rfl
    · exact Or.inl ⟨_, _, _, .full rfl hpos⟩

theorem goesOn_serving (m : Model) (run : Run) (width i : Nat) :
    GoesOn m (.serving width i) run := by
  have hmoved := moved_turn m width run i
  cases hturn : turn m run i with
  | again run' =>
    rw [hturn] at hmoved
    obtain ⟨w, hmove⟩ := hmoved
    exact Or.inl ⟨w, _, _, hmove⟩
  | ended run' =>
    rw [hturn] at hmoved
    obtain ⟨w, hmove⟩ := hmoved
    exact Or.inl ⟨w, _, _, hmove⟩
  | failed e slots =>
    refine Or.inr (Or.inr ⟨e, ?_⟩)
    rw [remaining, serve_of_failed hturn]
    rfl

theorem goesOn_draining (hi : i ≤ width) (hwidth : width ≤ run.slots.size) :
    GoesOn m (.draining width i) run := by
  rcases Nat.lt_or_eq_of_le hi with hlt | rfl
  · have hs : run.slots[i]? = some run.slots[i] := Array.getElem?_eq_getElem (by omega)
    cases hlive : run.slots[i].live with
    | false => exact Or.inl ⟨_, _, _, .passed hlt hs hlive⟩
    | true => exact Or.inl ⟨_, _, _, .found hlt hs hlive⟩
  · exact Or.inr (Or.inl rfl)

theorem goesOn_finishing (hs : run.slots[i]? = some s) : GoesOn m (.finishing width i) run := by
  have hfails : (∃ e, (finishAt m run width i).outcome = .error e) →
      GoesOn m (.finishing width i) run := fun h => Or.inr (Or.inr h)
  cases hstep : s.step m with
  | error e =>
    refine hfails ⟨e, ?_⟩
    simp only [finishAt, hs, Slot.drain_of_error hstep]
    rfl
  | ok stepped =>
    obtain ⟨q, s'⟩ := stepped
    by_cases hq : q = .finished
    · subst hq
      cases hrecord : record (tally run.report .finished) s' with
      | error e =>
        refine hfails ⟨e, ?_⟩
        have hrecord' : record { run.report with
            words := run.report.words + 1, steps := run.report.steps + 1 } s' = .error e := hrecord
        simp only [finishAt, hs, s.drain_of_finished hstep, hrecord']
        rfl
      | ok report => exact Or.inl ⟨_, _, _, .finished hs hstep hrecord⟩
    · exact Or.inl ⟨_, _, _, .wentOn hs hstep hq⟩

/-- A slot that was found busy is stepped to the end of its sentence. The induction is on the steps
that it takes. -/
theorem reaches_finished {words steps words' steps' : Nat} {report : Report}
    (h : Reaches m start (.finishing width i) run log) (hs : run.slots[i]? = some s)
    (hwords : run.report.words = words) (hsteps : run.report.steps = steps)
    (hdrain : s.drain m words steps = .ok (s', words', steps'))
    (hrecord : record { run.report with words := words', steps := steps' } s' = .ok report) :
    ∃ log', Reaches m start (.draining width (i + 1))
      ⟨put run.slots i s'.retire, run.items, report⟩ log' := by
  fun_induction Slot.drain m s words steps generalizing run log with
  | case1 => cases hdrain
  | case2 s words steps s₁ hstep ih =>
    have hmove := h.move (.wentOn hs hstep (by decide))
    obtain ⟨log', hreached⟩ := ih hmove (getElem?_put_self hs) hwords (congrArg (· + 1) hsteps)
      hdrain hrecord
    rw [put_put] at hreached
    exact ⟨log', hreached⟩
  | case3 s words steps s₁ hstep ih =>
    have hmove := h.move (.wentOn hs hstep (by decide))
    obtain ⟨log', hreached⟩ := ih hmove (getElem?_put_self hs) (congrArg (· + 1) hwords)
      (congrArg (· + 1) hsteps) hdrain hrecord
    rw [put_put] at hreached
    exact ⟨log', hreached⟩
  | case4 s words steps s₁ hstep =>
    cases hdrain
    subst hwords hsteps
    exact ⟨_, h.move (.finished hs hstep hrecord)⟩

theorem ends_drain {left : Nat} (h : Reaches m start (.draining width i) run log)
    (hleft : i + left = width) (hfinal : drain m run i left = .ok final) :
    ∃ log', Reaches m start (.draining width width) final log' := by
  induction left generalizing i run log with
  | zero =>
    obtain rfl : i = width := hleft
    cases hfinal
    exact ⟨log, h⟩
  | succ left ih =>
    rw [drain] at hfinal
    split at hfinal
    next => cases hfinal
    next s hs =>
      split at hfinal
      next hlive =>
        have hfound := h.move (.found (by omega) hs hlive)
        split at hfinal
        next => cases hfinal
        next hdrain =>
          split at hfinal
          next => cases hfinal
          next hrecord =>
            obtain ⟨log', hreached⟩ := reaches_finished hfound hs rfl rfl hdrain hrecord
            exact ih hreached (by omega) hfinal
      next hlive =>
        have hpassed := h.move (.passed (by omega) hs (by simpa using hlive))
        exact ih hpassed (by omega) hfinal

theorem ends_serve (h : Reaches m start (.serving width i) run log)
    (hserve : serve m width run i = .ok run') :
    ∃ log', Reaches m start (.draining width 0) run' log' := by
  induction run, i using serve.induct m width generalizing log with
  | case1 run i run₁ hagain ih =>
    have hmoved := moved_turn m width run i
    rw [hagain] at hmoved
    obtain ⟨_, hmove⟩ := hmoved
    rw [serve_of_again hagain] at hserve
    exact ih (h.move hmove) hserve
  | case2 run i run₁ hended =>
    have hmoved := moved_turn m width run i
    rw [hended] at hmoved
    obtain ⟨_, hmove⟩ := hmoved
    rw [serve_of_ended hended] at hserve
    cases hserve
    exact ⟨_, h.move hmove⟩
  | case3 run i e slots hfailed =>
    rw [serve_of_failed hfailed] at hserve
    cases hserve

theorem ends_fill {left : Nat} (h : Reaches m start (.filling i) run log)
    (hleft : i + left = run.slots.size)
    (hfinal : (fill m run i left >>= afterFill m) = .ok final) :
    ∃ width log', Reaches m start (.draining width width) final log' := by
  induction left generalizing i run log with
  | zero =>
    obtain rfl : i = run.slots.size := hleft
    by_cases hpos : run.slots.size = 0
    · simp only [fill, bind, Except.bind, afterFill, hpos, if_true] at hfinal
      cases hfinal
    · simp only [fill, bind, Except.bind, afterFill, hpos, if_false, Bool.false_eq_true] at hfinal
      split at hfinal
      next => cases hfinal
      next hserve =>
        obtain ⟨log₁, hserved⟩ := ends_serve (h.move (.full rfl hpos)) hserve
        exact ⟨_, ends_drain hserved (Nat.zero_add _) hfinal⟩
  | succ left ih =>
    rw [fill] at hfinal
    split at hfinal
    next hnone =>
      have := Array.getElem?_eq_none_iff.1 hnone
      omega
    next s hs =>
      split at hfinal
      next => cases hfinal
      next hfeed =>
        by_cases hpos : i = 0
        · simp only [bind, Except.bind, afterFill, hpos, if_true] at hfinal
          cases hfinal
        · simp only [bind, Except.bind, afterFill, hpos, if_false, if_true] at hfinal
          exact ⟨_, ends_drain (h.move (.dry hpos hs hfeed)) (Nat.zero_add _) hfinal⟩
      next hfeed =>
        split at hfinal
        next => cases hfinal
        next henter =>
          exact ih (h.move (.fed hs hfeed henter)) (by rw [size_put]; omega) hfinal

/-- **A run that succeeds gets to its end by moves.** -/
theorem reaches_end (h : complete m start = .ok final) :
    ∃ width log, Reaches m start (.draining width width) final log :=
  ends_fill .start (Nat.zero_add _) h

end Passed

/-! ## The scores that a move writes -/

section Written

variable {m : Model} {run run' : Run} {p p' : Place} {w : Option Nat} {s s' : Slot}
  {r report : Report} {j : Nat}

/-- Recording sets one score, and there has to be one to set. -/
theorem record_frame (h : record r s = .ok report) :
    s.index < r.scores.size ∧ report.scores = r.scores.setIfInBounds s.index s.score := by
  unfold record at h
  split at h
  next hlt =>
    cases h
    exact ⟨hlt, by rw [Array.setIfInBounds, dif_pos hlt]⟩
  next => cases h

theorem size_record (h : record r s = .ok report) : report.scores.size = r.scores.size := by
  rw [(record_frame h).2, Array.size_setIfInBounds]

theorem getElem?_record_self (h : record r s = .ok report) :
    report.scores[s.index]? = some s.score := by
  obtain ⟨hlt, hscores⟩ := record_frame h
  rw [hscores, Array.getElem?_setIfInBounds_self_of_lt hlt]

theorem getElem?_record_ne (h : record r s = .ok report) (hne : s.index ≠ j) :
    report.scores[j]? = r.scores[j]? := by
  rw [(record_frame h).2, Array.getElem?_setIfInBounds_ne hne]

/-- Entering a sentence makes room for one more score, whose number the slot gets. -/
theorem enter_frame (h : enter m r s = .ok (report, s')) :
    report.scores = r.scores.push .zero ∧ s'.index = r.scores.size ∧
      s'.live = !s.words.isEmpty := by
  unfold enter at h
  split at h
  next hstart =>
    cases h
    obtain ⟨walk, rfl⟩ := Slot.start_frame hstart
    exact ⟨rfl, rfl, rfl⟩
  next => cases h

theorem size_enter (h : enter m r s = .ok (report, s')) :
    report.scores.size = r.scores.size + 1 := by
  rw [(enter_frame h).1, Array.size_push]

theorem getElem?_enter (h : enter m r s = .ok (report, s')) (hj : j < r.scores.size) :
    report.scores[j]? = r.scores[j]? := by
  rw [(enter_frame h).1, Array.getElem?_push, if_neg (Nat.ne_of_lt hj)]

/-- A move writes no other score than the one that it says. -/
theorem Move.getElem?_scores (h : Move m p run w p' run') (hj : j < run.report.scores.size)
    (hw : w ≠ some j) : run'.report.scores[j]? = run.report.scores[j]? := by
  cases h with
  | fed hs hfeed henter => exact getElem?_enter henter hj
  | reloaded hs hstep hrecord hfeed henter =>
    rw [getElem?_enter henter (by rw [size_record hrecord]; exact hj),
      getElem?_record_ne hrecord fun h => hw (congrArg some h)]
    rfl
  | ended hs hstep hrecord hfeed =>
    exact (getElem?_record_ne hrecord fun h => hw (congrArg some h) :)
  | finished hs hstep hrecord => exact (getElem?_record_ne hrecord fun h => hw (congrArg some h) :)
  | _ => rfl

/-- The score that a move says it writes is that of the slot whose sentence was finished. -/
theorem Move.getElem?_written (h : Move m p run (some j) p' run') :
    ∃ i s s', p.stepped = some i ∧ run.slots[i]? = some s ∧ s.step m = .ok (.finished, s') ∧
      s'.index = j ∧ run'.report.scores[j]? = some s'.score := by
  cases h with
  | reloaded hs hstep hrecord hfeed henter =>
    refine ⟨_, _, _, rfl, hs, hstep, rfl, ?_⟩
    rw [getElem?_enter henter (by rw [size_record hrecord]; exact (record_frame hrecord).1)]
    exact getElem?_record_self hrecord
  | ended hs hstep hrecord hfeed =>
    exact ⟨_, _, _, rfl, hs, hstep, rfl, getElem?_record_self hrecord⟩
  | finished hs hstep hrecord =>
    exact ⟨_, _, _, rfl, hs, hstep, rfl, getElem?_record_self hrecord⟩

end Written

end Run

end Ngram
