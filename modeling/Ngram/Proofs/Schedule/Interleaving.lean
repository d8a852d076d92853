import Ngram.Proofs.Schedule.Ledger
import Ngram.Proofs.Schedule.Sentences

/-!
# A ring scores what one slot would

Filling, serving and draining keep the ledger of a run, and none of them can fail unless the stream
has a fault. So the order in which the slots are served leaves no trace in the report.

> `fill_cases`, `turn_cases`, `serve_cases`, `drain_eq`: each phase ends as the stream does.
> `score_eq_stream`: whatever its slots did before, a ring ends with the report, or the first fault,
> of scoring the stream one sentence after another.
> `score_sequential`: where a run succeeds, each score is that of its sentence alone, and any other
> number of slots gives the same report.
-/

namespace Ngram

/-- What scoring a stream one sentence after another comes to. -/
def Model.scoreStream (m : Model) (capacity : Nat) (items : List Item) : Except Error Report :=
  match m.vocabulary.sentences capacity items with
  | .error e => .error e
  | .ok [] => .error (.input .noSentences)
  | .ok (s :: more) => .ok (m.report (s :: more))

/-- Scoring a stream succeeds exactly if it consists of one sentence or more. -/
theorem Model.scoreStream_eq_ok_iff {m : Model} {capacity : Nat} {items : List Item}
    {report : Report} :
    m.scoreStream capacity items = .ok report ↔
      ∃ found : List (List Word), found ≠ [] ∧ items = found.flatten.map .ok ∧
        (∀ s ∈ found, IsSentence m.vocabulary capacity s) ∧ report = m.report found := by
  unfold scoreStream
  constructor
  · intro h
    split at h
    next => cases h
    next => cases h
    next s more hfound =>
      obtain ⟨hitems, hsentences⟩ := Vocabulary.sentences_eq_ok_iff.1 hfound
      exact ⟨s :: more, by simp, hitems, hsentences, (Except.ok.inj h).symm⟩
  · intro h
    obtain ⟨found, hne, hitems, hsentences, rfl⟩ := h
    rw [Vocabulary.sentences_eq_ok_iff.2 ⟨hitems, hsentences⟩]
    cases found with
    | nil => exact absurd rfl hne
    | cons s more => rfl

namespace Run

section Phases

variable {m : Model} {capacity width i : Nat} {fed : List (List Word)} {run : Run} {s : Slot}

/-- Feeding a slot comes to what the stream holds, and whatever it was doing before, the slot is not
busy then. -/
theorem feed_cases (m : Model) (s : Slot) (items : List Item) :
    (∃ e s' rest, s.feed m items = (.error e, s', rest) ∧
      m.vocabulary.sentences s.capacity items = .error e) ∨
    (∃ s', s.feed m items = (.ok .exhausted, s', []) ∧ s'.capacity = s.capacity ∧
      s'.live = false ∧ m.vocabulary.sentences s.capacity items = .ok []) ∨
    (∃ sentence s' rest, s.feed m items = (.ok .ready, s', rest) ∧ s'.capacity = s.capacity ∧
      s'.live = false ∧ s'.words.toList = sentence ∧
      IsSentence m.vocabulary s.capacity sentence ∧
      m.vocabulary.sentences s.capacity items =
        (m.vocabulary.sentences s.capacity rest).map (sentence :: ·)) := by
  match hcollect : Slot.collect m.vocabulary s.capacity #[] items with
  | (.error e, words, rest) =>
    exact Or.inl ⟨e, { s with words, live := false }, rest, by simp only [Slot.feed, hcollect],
      Vocabulary.sentences_of_error hcollect⟩
  | (.ok .exhausted, words, rest) =>
    obtain ⟨-, -, -, rfl⟩ := Slot.collect_exhausted hcollect
    exact Or.inr (Or.inl ⟨{ s with words, live := false }, by simp only [Slot.feed, hcollect], rfl,
      rfl, Vocabulary.sentences_of_exhausted hcollect⟩)
  | (.ok .ready, words, rest) =>
    exact Or.inr (Or.inr ⟨words.toList, { s with words, live := false }, rest,
      by simp only [Slot.feed, hcollect], rfl, rfl, rfl, (Slot.collect_ready_iff.1 hcollect).1,
      Vocabulary.sentences_of_ready hcollect⟩)

/-- Entering a sentence that was fed cannot fail. -/
theorem Sound.enter_eq {sentence : List Word} (h : Sound m capacity fed width run)
    (items : List Item) (hi : i < width) (hs : run.slots[i]? = some s)
    (hidle : s.live = false) (hwords : s.words.toList = sentence)
    (hsentence : IsSentence m.vocabulary capacity sentence) :
    ∃ report s', Run.enter m run.report s = .ok (report, s') ∧ s'.live = true ∧
      Sound m capacity (fed ++ [sentence]) width ⟨Run.put run.slots i s', items, report⟩ := by
  obtain ⟨s', hstart, hscoring, hindex, hcapacity, hleft, hsteps⟩ :=
    Slot.start_scoring run.report.scores.size hwords hsentence.ends.ne_nil hsentence.inside
  refine ⟨{ run.report with scores := run.report.scores.push .zero }, s', ?_, hscoring.live, ?_⟩
  · simp only [Run.enter, hstart]
  · exact h.enter hi hs hidle hcapacity hscoring (hindex.trans h.size) hleft hsteps

/-- Recording the score of a slot that has come to the end of its sentence, with its words and steps
counted, cannot fail, and the slot may then hold whatever is not busy. -/
theorem Sound.record_eq {sentence : List Word} {s' : Slot} {r : Report}
    (h : Sound m capacity fed width run) (hi : i < width) (hs : run.slots[i]? = some s)
    (hfed : fed[s.index]? = some sentence) (hscores : r.scores = run.report.scores)
    (hwords : r.words = run.report.words + s.wordsLeft)
    (hsteps : r.steps = run.report.steps + s.stepsLeft m) (hindex : s'.index = s.index)
    (hscore : s'.score = m.sentenceScore sentence) :
    ∃ report, record r s' = .ok report ∧ ∀ (s'' : Slot) (items : List Item),
      s''.capacity = s.capacity → s''.live = false →
        Sound m capacity fed width ⟨Run.put run.slots i s'', items, report⟩ := by
  have hlt : s.index < run.report.scores.size := by
    rw [h.size]
    exact (List.getElem?_eq_some_iff.1 hfed).1
  refine ⟨_, ?_, fun _ _ hcapacity hidle => h.collect hi hs hfed hcapacity hidle⟩
  obtain ⟨scores, words, steps⟩ := r
  subst hscores hwords hsteps
  simp only [record, hindex, hscore, dif_pos hlt, Array.setIfInBounds]

/-- Feeding the slots from number `i` on ends with a fault of the stream, with the end of the
stream, or with all slots busy. -/
theorem fill_cases (left : Nat) (h : Sound m capacity fed i run) (hbusy : Busy i run.slots)
    (hleft : i + left = run.slots.size) :
    (∃ e slots, fill m run i left = .error (e, slots) ∧
      m.vocabulary.sentences capacity run.items = .error e) ∨
    (∃ run' more ended, fill m run i left = .ok (run', i + more.length, ended) ∧
      Sound m capacity (fed ++ more) (i + more.length) run' ∧ Busy (i + more.length) run'.slots ∧
      m.vocabulary.sentences capacity run.items =
        (m.vocabulary.sentences capacity run'.items).map (more ++ ·) ∧
      if ended then m.vocabulary.sentences capacity run'.items = .ok []
      else i + more.length = run.slots.size) := by
  induction left generalizing i run fed with
  | zero =>
    refine Or.inr ⟨run, [], false, rfl, by simpa using h, hbusy, ?_, hleft⟩
    cases m.vocabulary.sentences capacity run.items <;> rfl
  | succ left ih =>
    obtain ⟨s, hs⟩ : ∃ s, run.slots[i]? = some s :=
      ⟨_, Array.getElem?_eq_getElem (by omega)⟩
    have hcapacity : s.capacity = capacity := h.capacity s (Array.mem_of_getElem? hs)
    -- the slot meets a fault of the stream or its end, or is fed the next sentence
    rcases feed_cases m s run.items with ⟨e, s', rest, hfeed, hsentences⟩ |
      ⟨s', hfeed, hsame, hidle, hsentences⟩ |
      ⟨sentence, s', rest, hfeed, hsame, hidle, hwords, hsentence, hsentences⟩
    · rw [hcapacity] at hsentences
      exact Or.inl ⟨e, put run.slots i s', by simp only [fill, hs, hfeed], hsentences⟩
    · rw [hcapacity] at hsentences
      -- the slot is not among the first `i`, so the ledger does not speak of it
      have hsound := h.put_outside [] (Nat.le_refl i) hs hsame
      have hnone : m.vocabulary.sentences capacity [] = .ok [] :=
        Vocabulary.sentences_of_exhausted rfl
      refine Or.inr ⟨{ run with slots := put run.slots i s', items := [] }, [], true,
        by simp only [fill, hs, hfeed]; rfl, by simpa using hsound,
        hbusy.put_outside (Nat.le_refl i), ?_, hnone⟩
      rw [hsentences, hnone]
      rfl
    · rw [hcapacity] at hsentences hsentence
      -- the ledger takes the slot in while it is idle, and then its sentence
      have hs' : (put run.slots i s')[i]? = some s' := getElem?_put_self hs
      obtain ⟨report, s'', henter, hlive, hsound⟩ :=
        ((h.put_outside rest (Nat.le_refl i) hs hsame).widen hs' hidle).enter_eq rest
          (Nat.lt_succ_self i) hs' hidle hwords hsentence
      rw [put_put] at hsound
      have hbusy' : Busy (i + 1) (put run.slots i s'') :=
        (hbusy.put_outside (Nat.le_refl i)).succ (getElem?_put_self hs) hlive
      have hfill : fill m run i (left + 1) =
          fill m ⟨put run.slots i s'', rest, report⟩ (i + 1) left := by
        simp only [fill, hs, hfeed]
        rw [henter]
      rw [hfill, hsentences]
      rcases ih hsound hbusy' (by rw [size_put]; omega) with ⟨e, slots, heq, hmore⟩ |
        ⟨run', more, ended, heq, hsound', hbusy'', hmore, hend⟩
      · exact Or.inl ⟨e, slots, heq, by rw [hmore]; rfl⟩
      · have hwidth : i + (sentence :: more).length = i + 1 + more.length := by
          rw [List.length_cons]
          omega
        refine Or.inr ⟨run', sentence :: more, ended, by rw [heq, hwidth], ?_, ?_, ?_, ?_⟩
        · rw [hwidth]
          simpa using hsound'
        · rw [hwidth]
          exact hbusy''
        · rw [hmore]
          cases m.vocabulary.sentences capacity run'.items <;> rfl
        · rw [hwidth]
          simpa only [size_put] using hend

/-- Once the score of slot `i` can be recorded, the slot takes what the stream holds next. -/
theorem reload_cases (run : Run) {report : Report} (hi : i < width) (hbusy : Busy width run.slots)
    (hcapacity : s.capacity = capacity) (hrecord : record run.report s = .ok report)
    (hsound : ∀ (t : Slot) (items : List Item), t.capacity = capacity → t.live = false →
      Sound m capacity fed width ⟨put run.slots i t, items, report⟩) :
    (∃ e slots, reload m run i s = .failed e slots ∧
      m.vocabulary.sentences capacity run.items = .error e) ∨
    (∃ run', reload m run i s = .ended run' ∧ Sound m capacity fed width run' ∧
      m.vocabulary.sentences capacity run.items = .ok []) ∨
    (∃ run' sentence, reload m run i s = .again run' ∧
      Sound m capacity (fed ++ [sentence]) width run' ∧ Busy width run'.slots ∧
      m.vocabulary.sentences capacity run.items =
        (m.vocabulary.sentences capacity run'.items).map (sentence :: ·)) := by
  have hretire : s.retire.capacity = capacity := hcapacity
  rcases feed_cases m s.retire run.items with ⟨e, t, rest, hfeed, hsentences⟩ |
    ⟨t, hfeed, hsame, hidle, hsentences⟩ |
    ⟨sentence, t, rest, hfeed, hsame, hidle, hwords, hsentence, hsentences⟩
  · rw [hretire] at hsentences
    exact Or.inl ⟨e, put run.slots i t, by simp only [reload, hrecord, hfeed], hsentences⟩
  · rw [hretire] at hsentences hsame
    exact Or.inr (Or.inl ⟨⟨put run.slots i t, [], report⟩, by simp only [reload, hrecord, hfeed],
      hsound t [] hsame hidle, hsentences⟩)
  · rw [hretire] at hsentences hsame hsentence
    -- the slot is put back twice, idle with its score recorded and busy again
    obtain ⟨slot, hslot, -⟩ := hbusy i hi
    obtain ⟨report', t', henter, hlive, hsound'⟩ := (hsound t rest hsame hidle).enter_eq rest
      hi (getElem?_put_self hslot) hidle hwords hsentence
    rw [put_put] at hsound'
    refine Or.inr (Or.inr ⟨⟨put run.slots i t', rest, report'⟩, sentence, ?_, hsound',
      hbusy.put hlive, hsentences⟩)
    simp only [reload, hrecord, hfeed]
    rw [henter]

/-- A turn of a busy slot ends with a fault of the stream or with its end, or leaves all slots busy
and the stream as it was or one sentence shorter. -/
theorem turn_cases (h : Sound m capacity fed width run) (hbusy : Busy width run.slots)
    (hi : i < width) :
    (∃ e slots, turn m run i = .failed e slots ∧
      m.vocabulary.sentences capacity run.items = .error e) ∨
    (∃ run', turn m run i = .ended run' ∧ Sound m capacity fed width run' ∧
      m.vocabulary.sentences capacity run.items = .ok []) ∨
    (∃ run' more, turn m run i = .again run' ∧ Sound m capacity (fed ++ more) width run' ∧
      Busy width run'.slots ∧ m.vocabulary.sentences capacity run.items =
        (m.vocabulary.sentences capacity run'.items).map (more ++ ·)) := by
  obtain ⟨s, hs, hlive⟩ := hbusy i hi
  obtain ⟨sentence, hfed, hscoring⟩ := h.held i hi s hs hlive
  have hcapacity : s.capacity = capacity := h.capacity s (Array.mem_of_getElem? hs)
  obtain ⟨p, s', hstep, hstepped⟩ := hscoring.step
  -- the stream is read at the end of a sentence only
  by_cases hp : p = .finished
  · subst hp
    obtain ⟨hwords, hsteps⟩ := hstepped.left_of_finished
    obtain ⟨report, hrecord, hsound⟩ := h.record_eq (r := tally run.report .finished) hi hs hfed rfl
      (by rw [hwords]; rfl) (by rw [hsteps]; rfl) hstepped.index (hstepped.score rfl).2
    have hturn :
        turn m run i = reload m { run with report := tally run.report .finished } i s' := by
      simp only [turn, hs, hstep]
    rw [hcapacity] at hsound
    rw [hturn]
    rcases reload_cases { run with report := tally run.report .finished } hi hbusy
      (hstepped.capacity.trans hcapacity) hrecord hsound with hfailed | hended |
      ⟨run', next, hagain, hnext⟩
    · exact Or.inl hfailed
    · exact Or.inr (Or.inl hended)
    · exact Or.inr (Or.inr ⟨run', [next], hagain, hnext⟩)
  · have hturn : turn m run i = .again
        { run with slots := put run.slots i s', report := tally run.report p } := by
      simp only [turn, hs, hstep]
    refine Or.inr (Or.inr ⟨_, [], hturn, by simpa using h.step hi hs hfed hp hstepped,
      hbusy.put (hstepped.goesOn hp).live, ?_⟩)
    cases m.vocabulary.sentences capacity run.items <;> rfl

theorem serve_of_again {run' : Run} (h : turn m run i = .again run') :
    serve m width run i = serve m width run' (if i + 1 = width then 0 else i + 1) := by
  conv_lhs => rw [serve]
  split
  next h' => rw [h] at h'; cases h'; rfl
  next h' => rw [h] at h'; cases h'
  next h' => rw [h] at h'; cases h'

theorem serve_of_ended {run' : Run} (h : turn m run i = .ended run') :
    serve m width run i = .ok run' := by
  rw [serve]
  split
  next h' => rw [h] at h'; cases h'
  next h' => rw [h] at h'; cases h'; rfl
  next h' => rw [h] at h'; cases h'

theorem serve_of_failed {e : Error} {slots : Array Slot} (h : turn m run i = .failed e slots) :
    serve m width run i = .error (e, slots) := by
  rw [serve]
  split
  next h' => rw [h] at h'; cases h'
  next h' => rw [h] at h'; cases h'
  next h' => rw [h] at h'; cases h'; rfl

/-- Serving ends as the stream does. The induction is on the turns. -/
theorem serve_cases (h : Sound m capacity fed width run) (hbusy : Busy width run.slots)
    (hi : i < width) :
    (∃ e slots, serve m width run i = .error (e, slots) ∧
      m.vocabulary.sentences capacity run.items = .error e) ∨
    (∃ run' more, serve m width run i = .ok run' ∧ Sound m capacity (fed ++ more) width run' ∧
      m.vocabulary.sentences capacity run.items = .ok more) := by
  have hturn := turn_cases h hbusy hi
  induction run, i using serve.induct m width generalizing fed with
  | case1 run i run' hagain ih =>
    rw [hagain] at hturn
    rcases hturn with ⟨_, _, hturn, -⟩ | ⟨_, hturn, -⟩ |
      ⟨_, more, hturn, hsound, hbusy', hsentences⟩
    · cases hturn
    · cases hturn
    · cases hturn
      have hnext : (if i + 1 = width then 0 else i + 1) < width := by
        split
        next => omega
        next => omega
      -- what the turn took off the stream goes in front of what the other turns take
      rw [serve_of_again hagain, hsentences]
      rcases ih hsound hbusy' hnext (turn_cases hsound hbusy' hnext) with
        ⟨e, slots, hserve, hmore⟩ | ⟨run₁, more', hserve, hsound', hmore⟩
      · exact Or.inl ⟨e, slots, hserve, by rw [hmore]; rfl⟩
      · rw [List.append_assoc] at hsound'
        exact Or.inr ⟨run₁, more ++ more', hserve, hsound', by rw [hmore]; rfl⟩
  | case2 run i run' hended =>
    rw [hended] at hturn
    rcases hturn with ⟨_, _, hturn, -⟩ | ⟨_, hturn, hsound, hsentences⟩ | ⟨_, _, hturn, -⟩
    · cases hturn
    · cases hturn
      exact Or.inr ⟨run', [], serve_of_ended hended, by simpa using hsound, hsentences⟩
    · cases hturn
  | case3 run i e slots hfailed =>
    rw [hfailed] at hturn
    rcases hturn with ⟨_, _, hturn, hsentences⟩ | ⟨_, hturn, -⟩ | ⟨_, _, hturn, -⟩
    · cases hturn
      exact Or.inl ⟨e, slots, serve_of_failed hfailed, hsentences⟩
    · cases hturn
    · cases hturn

/-- Draining the slots from number `i` on, with the ones before them idle, cannot fail, and leaves
the report of all sentences that were fed. -/
theorem drain_eq {left : Nat} (h : Sound m capacity fed width run) (hleft : i + left = width)
    (hidle : ∀ j < i, ∀ s, run.slots[j]? = some s → s.live = false) :
    ∃ run', drain m run i left = .ok run' ∧ run'.report = m.report fed := by
  induction left generalizing i run with
  | zero =>
    obtain rfl : i = width := hleft
    exact ⟨run, rfl, h.report_eq hidle⟩
  | succ left ih =>
    have hi : i < width := by omega
    obtain ⟨s, hs⟩ : ∃ s, run.slots[i]? = some s :=
      ⟨_, Array.getElem?_eq_getElem (Nat.lt_of_lt_of_le hi h.width_le)⟩
    by_cases hlive : s.live = true
    · obtain ⟨sentence, hfed, hscoring⟩ := h.held i hi s hs hlive
      obtain ⟨s', hdrain, hindex, hcapacity, hscore⟩ :=
        hscoring.drain_eq run.report.words run.report.steps
      obtain ⟨report, hrecord, hsound⟩ := h.record_eq (r := { run.report with
          words := run.report.words + s.wordsLeft
          steps := run.report.steps + s.stepsLeft m }) hi hs hfed rfl rfl rfl hindex hscore
      have hstep : drain m run i (left + 1) =
          drain m ⟨put run.slots i s'.retire, run.items, report⟩ (i + 1) left := by
        simp only [drain, hs, hlive, if_true, hdrain, hrecord]
      rw [hstep]
      refine ih (hsound s'.retire run.items hcapacity rfl) (by omega) ?_
      intro j hj t ht
      rcases Nat.lt_succ_iff_lt_or_eq.1 hj with hlt | rfl
      · rw [getElem?_put_ne (by omega)] at ht
        exact hidle j hlt t ht
      · rw [getElem?_put_self hs] at ht
        cases ht
        rfl
    · -- an idle slot has nothing left to record
      have hstep : drain m run i (left + 1) = drain m run (i + 1) left := by
        simp only [drain, hs, hlive, Bool.false_eq_true, if_false]
      rw [hstep]
      refine ih h (by omega) ?_
      intro j hj t ht
      rcases Nat.lt_succ_iff_lt_or_eq.1 hj with hlt | rfl
      · exact hidle j hlt t ht
      · rw [hs] at ht
        cases ht
        simpa using hlive

/-- A run whose slots have done whatever they did before has nothing in its ledger. -/
theorem sound_nil {slots : Array Slot} (hcapacity : ∀ s ∈ slots, s.capacity = capacity)
    (items : List Item) : Sound m capacity [] 0 ⟨slots, items, {}⟩ :=
  ⟨Nat.zero_le _, hcapacity, rfl, fun _ hi => absurd hi (Nat.not_lt_zero _),
    fun j _ h => by simp at h, rfl, rfl⟩

/-- **All phases together score the stream.** -/
theorem complete_cases {slots : Array Slot} (hcapacity : ∀ s ∈ slots, s.capacity = capacity)
    (hslots : 0 < slots.size) (items : List Item) :
    (∃ e slots', complete m ⟨slots, items, {}⟩ = .error (e, slots') ∧
      m.scoreStream capacity items = .error e) ∨
    (∃ run, complete m ⟨slots, items, {}⟩ = .ok run ∧
      m.scoreStream capacity items = .ok run.report) := by
  unfold complete Model.scoreStream
  rcases fill_cases slots.size (sound_nil (m := m) hcapacity items)
      (fun _ hi => absurd hi (Nat.not_lt_zero _)) (Nat.zero_add _) with
    ⟨e, slots', hfill, hsentences⟩ | ⟨run, more, ended, hfill, hsound, hbusy, hsentences, hend⟩
  · simp only [hfill, hsentences]
    exact Or.inl ⟨e, slots', rfl, rfl⟩
  · rw [Nat.zero_add] at hfill hsound hbusy hend
    rw [List.nil_append] at hsound
    simp only [hfill, hsentences]
    cases more with
    | nil =>
      -- no slot was fed: the ring has slots, so the stream has ended
      cases ended with
      | false => exact absurd hend.symm (Nat.ne_of_gt hslots)
      | true =>
        rw [if_pos rfl] at hend
        rw [hend]
        exact Or.inl ⟨.input .noSentences, run.slots, rfl, rfl⟩
    | cons s more =>
      have hfed : 0 < (s :: more).length := Nat.succ_pos _
      simp only [bind, Except.bind]
      rw [if_neg (Nat.ne_of_gt hfed)]
      cases ended with
      | true =>
        rw [if_pos rfl] at hend
        obtain ⟨run', hdrain, hreport⟩ := drain_eq hsound (Nat.zero_add _)
          fun _ hj => absurd hj (Nat.not_lt_zero _)
        rw [hend]
        simp only [if_true, hdrain]
        refine Or.inr ⟨run', rfl, ?_⟩
        simp [Except.map, hreport]
      | false =>
        rcases serve_cases hsound hbusy hfed with ⟨e, slots', hserve, hrest⟩ |
          ⟨run₁, rest, hserve, hsound', hrest⟩
        · rw [hrest]
          simp only [hserve]
          exact Or.inl ⟨e, slots', rfl, rfl⟩
        · obtain ⟨run', hdrain, hreport⟩ := drain_eq hsound' (Nat.zero_add _)
            fun _ hj => absurd hj (Nat.not_lt_zero _)
          rw [hrest]
          simp only [hserve, hdrain]
          refine Or.inr ⟨run', rfl, ?_⟩
          simp [Except.map, hreport]

end Phases

end Run

namespace Ring

/-- **A ring scores what one slot would.** Whatever its slots did before, and however many there
are, a ring ends with the report, or the first fault, of scoring the stream one sentence after
another. -/
theorem score_eq_stream {m : Model} {ring : Ring} {capacity : Nat}
    (hcapacity : ∀ s ∈ ring.slots, s.capacity = capacity) (hslots : 0 < ring.slots.size)
    (items : List Item) : (ring.score m items).1 = m.scoreStream capacity items := by
  unfold score
  rcases Run.complete_cases (m := m) hcapacity hslots items with
    ⟨e, slots', hcomplete, hstream⟩ | ⟨run, hcomplete, hstream⟩
  · rw [hcomplete, hstream]
  · rw [hcomplete, hstream]

/-- What a run comes to depends on the settings by the longest sentence only, and on earlier runs
not at all. -/
theorem score_after {m : Model} {settings : PipelineSettings} {ring : Ring}
    (hring : ofSettings m settings = .ok ring) (earlier : List (List Item)) (items : List Item) :
    ((ring.after m earlier).score m items).1 = m.scoreStream settings.maxWords items := by
  obtain ⟨hshaped, hdepth⟩ := shaped_ofSettings hring
  have hafter := shaped_after (m := m) hshaped earlier
  exact score_eq_stream hafter.capacity_eq (hafter.size_eq ▸ hdepth) items

/-- **Interleaving leaves no trace.** Where a run succeeds, its stream is a concatenation of
sentences, each score is, bit for bit, that of its sentence scored alone, every word was counted,
and a ring of any number of slots, used before or not, gives the same report. -/
theorem score_sequential {m : Model} {settings : PipelineSettings} {ring : Ring}
    {earlier : List (List Item)} {items : List Item} {report : Report}
    (hring : ofSettings m settings = .ok ring)
    (hrun : ((ring.after m earlier).score m items).1 = .ok report) :
    (∃ sentences : List (List Word), items = sentences.flatten.map .ok ∧
      ∀ s ∈ sentences, EndsOnce m.vocabulary.endSentence s) ∧
    (∀ sentences : List (List Word), items = sentences.flatten.map .ok →
      (∀ s ∈ sentences, EndsOnce m.vocabulary.endSentence s) →
        report.scores.size = sentences.length ∧
        (∀ (i : Nat) (s : List Word), sentences[i]? = some s →
          ∃ score, report.scores[i]? = some score ∧ m.scoreSentence s = .ok score) ∧
        report.words = sentences.flatten.length) ∧
    ∀ (settings' : PipelineSettings) (ring' : Ring) (earlier' : List (List Item)),
      ofSettings m settings' = .ok ring' → settings.maxWords ≤ settings'.maxWords →
        ((ring'.after m earlier').score m items).1 = .ok report := by
  rw [score_after hring] at hrun
  obtain ⟨found, hne, hitems, hsentences, rfl⟩ := Model.scoreStream_eq_ok_iff.1 hrun
  refine ⟨⟨found, hitems, fun s hs => (hsentences s hs).ends⟩, ?_, ?_⟩
  · intro sentences hsame hends
    -- a stream is cut into sentences in one way only, so these are the ones that were fed
    have hflatten : sentences.flatten = found.flatten := by
      rw [hitems] at hsame
      exact List.map_injective_iff.2 (fun _ _ h => Except.ok.inj h) hsame.symm
    obtain rfl := Vocabulary.sentences_unique hsentences hends hflatten
    refine ⟨by simp [Model.report], ?_, by rw [List.length_flatten]; rfl⟩
    intro i s hs
    refine ⟨m.sentenceScore s, by simp [Model.report, hs], ?_⟩
    exact m.scoreSentence_eq (hsentences s (List.mem_of_getElem? hs)).inside
  · intro settings' ring' earlier' hring' hle
    rw [score_after hring']
    exact Model.scoreStream_eq_ok_iff.2
      ⟨found, hne, hitems, fun s hs => (hsentences s hs).mono hle, rfl⟩

/-- A model of order one in which three words have the same weights. -/
def flatModel : Model :=
  { vocabulary := ⟨3, 0, 1, 2⟩
    store :=
      { order := 1
        unigrams := Array.replicate 3 ⟨⟨0xbf800000⟩, .zero, ⟨0xbf800000⟩⟩
        middle := #[]
        longest :=
          { slots := #[Entry.blank], reducer := .divide (.ofDivisor 1), slots_pos := by decide,
            slots_lt := by decide, reducer_eq := rfl, count := 0, count_eq := by decide,
            count_lt := by decide }
        order_pos := by decide, order_le := by decide, middle_size := rfl,
        unigrams_pos := by decide, unigrams_lt := by decide }
    vocabulary_valid := ⟨by decide, by decide, by decide, by decide⟩
    bound_eq := rfl }

/-- Three sentences in two slots that failed runs have used before, and in five new ones. -/
theorem score_sequential_three :
    ∃ ring ring' report, ofSettings flatModel { depth := 2 } = .ok ring ∧
      ofSettings flatModel { depth := 5 } = .ok ring' ∧
      let items := [.ok 0, .ok 2, .ok 2, .ok 1, .ok 0, .ok 2]
      ((ring.after flatModel [[.ok 0], []]).score flatModel items).1 = .ok report ∧
        report.scores.size = 3 ∧ report.words = 6 ∧
        ((ring'.after flatModel []).score flatModel items).1 = .ok report := by
  have hring : ofSettings flatModel { depth := 2 } = .ok _ := rfl
  have hring' : ofSettings flatModel { depth := 5 } = .ok _ := rfl
  have hends : ∀ s ∈ [[0, 2], [2], [1, 0, 2]], EndsOnce flatModel.vocabulary.endSentence s := by
    simp only [List.forall_mem_cons]
    exact ⟨⟨[0], rfl, by decide⟩, ⟨[], rfl, by decide⟩, ⟨[1, 0], rfl, by decide⟩, by simp⟩
  have hinside : ∀ s ∈ [[0, 2], [2], [1, 0, 2]], ∀ word ∈ s, word < flatModel.vocabulary.bound := by
    show ∀ s ∈ [[0, 2], [2], [1, 0, 2]], ∀ word ∈ s, word < (3 : Word)
    simp
  have hrun := score_after hring [[.ok 0], []] ([[0, 2], [2], [1, 0, 2]].flatten.map .ok)
  rw [Model.scoreStream_eq_ok_iff.2 ⟨_, by simp, rfl, fun s hs => ⟨hends s hs, hinside s hs, by
    revert s; decide⟩, rfl⟩] at hrun
  obtain ⟨-, hscores, hsame⟩ := score_sequential hring hrun
  obtain ⟨hsize, -, hwords⟩ := hscores [[0, 2], [2], [1, 0, 2]] rfl hends
  exact ⟨_, _, _, hring, hring', hrun, hsize, hwords,
    hsame { depth := 5 } _ [] hring' (Nat.le_refl _)⟩

end Ring

end Ngram
