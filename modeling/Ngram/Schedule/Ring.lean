import Ngram.Schedule.Report
import Ngram.Schedule.Slot

/-!
# Rings of sentence slots

A ring scores many sentences at once. Its slots are filled from the front of a stream of items, as
far as there are sentences, and then stepped in turn, so that while the search of one waits for
memory the others are served. A slot that has finished its sentence is fed the next one. Once the
stream has ended, the slots that are still busy are stepped to their ends one after another.

Each sentence gets its number when it is fed, and its score is written under that number, whenever
it is finished. A stream has to hold at least one sentence, and its first fault ends the run.
-/

namespace Ngram

/-- Slots that are served in turn. -/
structure Ring where
  slots : Array Slot

/-- A run under way: the slots, what is left of the stream, and the report so far. -/
structure Run where
  slots : Array Slot
  items : List Item
  report : Report

namespace Run

/-- Writes the score of a finished sentence. -/
def record (r : Report) (s : Slot) : Except Error Report :=
  if h : s.index < r.scores.size then .ok { r with scores := r.scores.set s.index s.score h }
  else .error .outOfRange

/-- Starts a sentence that was fed, under the next free number. -/
def enter (m : Model) (r : Report) (s : Slot) : Except Error (Report × Slot) :=
  match s.start m r.scores.size with
  | .ok s => .ok ({ r with scores := r.scores.push .zero }, s)
  | .error e => .error e

/-- Puts a slot back into its place. -/
def put (slots : Array Slot) (i : Nat) (s : Slot) : Array Slot := slots.setIfInBounds i s

/-- A bound on the steps left before the next sentence has to be fed. -/
def work (m : Model) (slots : Array Slot) : Nat := (slots.toList.map (Slot.work m)).sum

/-- Counts a step, and a word if one was scored. -/
def tally (r : Report) (p : Progress) : Report :=
  { r with steps := r.steps + 1, words := if p = .pending then r.words else r.words + 1 }

/-- How a phase of a run ends: with the run as it then is, or with an error and the slots as they
are left. -/
abbrev Phase := Except (Error × Array Slot) Run

/-- Feeds the slots from number `i` on, up to the end of the stream. The result says how many slots
hold a sentence and whether the stream has ended. -/
def fill (m : Model) (run : Run) (i : Nat) : Nat → Except (Error × Array Slot) (Run × Nat × Bool)
  | 0 => .ok (run, i, false)
  | left + 1 =>
    match run.slots[i]? with
    | none => .ok (run, i, false)
    | some s =>
      match s.feed m run.items with
      | (.error e, s, _) => .error (e, put run.slots i s)
      | (.ok .exhausted, s, items) => .ok ({ run with slots := put run.slots i s, items }, i, true)
      | (.ok .ready, s, items) =>
        match enter m run.report s with
        | .error e => .error (e, put run.slots i s)
        | .ok (report, s) => fill m ⟨put run.slots i s, items, report⟩ (i + 1) left

theorem sum_map_set {α : Type} (f : α → Nat) (l : List α) (i : Nat) (a : α) (h : i < l.length) :
    ((l.set i a).map f).sum + f l[i] = (l.map f).sum + f a := by
  induction l generalizing i with
  | nil => cases h
  | cons b l ih =>
    cases i with
    | zero => simp; omega
    | succ i =>
      have := ih i (Nat.lt_of_succ_lt_succ h)
      simp only [List.set_cons_succ, List.map_cons, List.sum_cons, List.getElem_cons_succ]
      omega

theorem work_put {m : Model} {slots : Array Slot} {i : Nat} {s s' : Slot}
    (hi : slots[i]? = some s) (hw : s'.work m < s.work m) :
    work m (put slots i s') < work m slots := by
  obtain ⟨h, rfl⟩ := Array.getElem?_eq_some_iff.1 hi
  have := sum_map_set (Slot.work m) slots.toList i s' (by simpa using h)
  simp only [work, put, Array.toList_setIfInBounds]
  simp only [Array.getElem_toList] at this
  omega

/-- What a turn leaves to do. -/
inductive Turn where
  /-- The stream may hold more, and the next slot has its turn. -/
  | again (run : Run)
  /-- The stream has ended. -/
  | ended (run : Run)
  | failed (e : Error) (slots : Array Slot)

/-- Collects the score of a finished sentence from slot `i`, and feeds the slot the next one. -/
def reload (m : Model) (run : Run) (i : Nat) (s : Slot) : Turn :=
  match record run.report s with
  | .error e => .failed e (put run.slots i s)
  | .ok report =>
    match s.retire.feed m run.items with
    | (.error e, s, _) => .failed e (put run.slots i s)
    | (.ok .exhausted, s, items) => .ended ⟨put run.slots i s, items, report⟩
    | (.ok .ready, s, items) =>
      match enter m report s with
      | .error e => .failed e (put run.slots i s)
      | .ok (report, s) => .again ⟨put run.slots i s, items, report⟩

/-- Steps slot `i` once. -/
def turn (m : Model) (run : Run) (i : Nat) : Turn :=
  match run.slots[i]? with
  | none => .failed .outOfRange run.slots
  | some s =>
    match s.step m with
    | .error e => .failed e run.slots
    | .ok (.finished, s) => reload m { run with report := tally run.report .finished } i s
    | .ok (p, s) => .again { run with slots := put run.slots i s, report := tally run.report p }

theorem reload_again {m : Model} {run run' : Run} {i : Nat} {s : Slot}
    (h : reload m run i s = .again run') : run'.items.length < run.items.length := by
  unfold reload at h
  split at h
  next => cases h
  next =>
    split at h
    next => cases h
    next => cases h
    next hf =>
      split at h
      next => cases h
      next => cases h; exact Slot.feed_ready hf

/-- A turn that leaves something to do has taken a sentence from the stream, or used up some of the
work of the sentences in flight. -/
theorem turn_again {m : Model} {run run' : Run} {i : Nat} (h : turn m run i = .again run') :
    run'.items.length < run.items.length ∨
      run'.items.length = run.items.length ∧ work m run'.slots < work m run.slots := by
  unfold turn at h
  split at h
  next => cases h
  next s hi =>
    split at h
    next => cases h
    next => exact Or.inl (by simpa using reload_again h)
    next p s' hp hs =>
      cases h
      exact Or.inr ⟨rfl, work_put hi (Slot.step_work hs hp)⟩

/-- Gives the first `width` slots their turns, from number `i` on, until the stream has ended. -/
def serve (m : Model) (width : Nat) (run : Run) (i : Nat) : Phase :=
  match _h : turn m run i with
  | .again run => serve m width run (if i + 1 = width then 0 else i + 1)
  | .ended run => .ok run
  | .failed e slots => .error (e, slots)
termination_by (run.items.length, work m run.slots)
decreasing_by
  rcases turn_again _h with hlt | ⟨heq, hlt⟩
  · exact Prod.Lex.left _ _ hlt
  · rw [heq]; exact Prod.Lex.right _ hlt

/-- Steps the slots from number `i` on that are still busy to their ends. -/
def drain (m : Model) (run : Run) (i : Nat) : Nat → Phase
  | 0 => .ok run
  | left + 1 =>
    match run.slots[i]? with
    | none => .error (.outOfRange, run.slots)
    | some s =>
      if s.live then
        match s.drain m run.report.words run.report.steps with
        | .error e => .error (e, run.slots)
        | .ok (s, words, steps) =>
          match record { run.report with words, steps } s with
          | .error e => .error (e, put run.slots i s)
          | .ok report => drain m ⟨put run.slots i s.retire, run.items, report⟩ (i + 1) left
      else drain m run (i + 1) left

/-- All phases of a run. -/
def complete (m : Model) (run : Run) : Phase := do
  let (run, width, ended) ← fill m run 0 run.slots.size
  -- slots behind the first `width` ones were never fed in this run
  if width = 0 then .error (.input .noSentences, run.slots)
  else
    let run ← if ended then .ok run else serve m width run 0
    drain m run 0 width

end Run

namespace Ring

/-- A ring for given settings, which are checked first. -/
def ofSettings (m : Model) (settings : PipelineSettings) : Except Error Ring := do
  settings.validate
  .ok ⟨Array.replicate settings.depth (Slot.idle m settings.maxWords)⟩

/-- The number of slots. -/
def depth (r : Ring) : Nat := r.slots.size

/-- Scores every sentence of a stream. The ring can then be used for another run. -/
def score (m : Model) (r : Ring) (items : List Item) : Except Error Report × Ring :=
  match Run.complete m ⟨r.slots, items, {}⟩ with
  | .ok run => (.ok run.report, ⟨run.slots⟩)
  | .error (e, slots) => (.error e, ⟨slots⟩)

end Ring

end Ngram
