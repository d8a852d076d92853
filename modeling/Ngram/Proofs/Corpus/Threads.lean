import Ngram.Corpus.Scorer
import Ngram.Proofs.Checks
import Ngram.Proofs.Corpus.Parts
import Ngram.Proofs.Schedule.Interleaving

/-!
# Threads and depth leave no trace

The parts of a corpus are scored side by side, each by a ring of its own, and their reports are put
together in the order of the corpus. A part ends with the end of a sentence, so its sentences are
those that the whole corpus has there, and the scores come out in one order however many parts there
were. An error of one part is an error of the corpus; which part's it is depends on who fails first,
unless the parts are scored one after another.

> `foldlM_extend?_eq_ok_iff`: reports are put together without an overflow if their sums fit.
> `scoreItems_eq`: a new ring scores a stream as one slot would.
> `mapM_scorePart`: the reports of parts, put together, are the report of the corpus.
> `scoreWords_eq`: scoring a corpus part by part comes to what the undivided corpus does.
> `Outcome.eq_ok_iff`: so does scoring the parts in any order, but for which error is returned.
> `outcome_neutral`: scorers that differ in their threads and depth only agree.
-/

namespace Ngram

namespace Report

theorem extend_empty (r : Report) : r.extend {} = r := by
  simp [extend]

theorem empty_extend (r : Report) : extend {} r = r := by
  simp [extend]

theorem extend_assoc (r₁ r₂ r₃ : Report) :
    (r₁.extend r₂).extend r₃ = r₁.extend (r₂.extend r₃) := by
  simp [extend, Array.append_assoc, Nat.add_assoc]

theorem foldl_extend (rs : List Report) (r : Report) :
    rs.foldl extend r = r.extend (concat rs) := by
  induction rs generalizing r with
  | nil => exact (extend_empty r).symm
  | cons r' rs ih =>
    rw [concat, List.foldl_cons, List.foldl_cons, ih, ih, empty_extend, extend_assoc]

theorem concat_cons (r : Report) (rs : List Report) : concat (r :: rs) = r.extend (concat rs) := by
  rw [concat, List.foldl_cons, foldl_extend, empty_extend]

theorem extend?_eq_ok_iff {r r' joined : Report} : r.extend? r' = .ok joined ↔
    joined = r.extend r' ∧ joined.words < 2 ^ 64 ∧ joined.steps < 2 ^ 64 := by
  unfold extend?
  dsimp only
  constructor
  · intro h
    split at h
    next hfits => cases h; exact ⟨rfl, hfits⟩
    next => cases h
  · rintro ⟨rfl, hfits⟩
    exact if_pos hfits

/-- **Reports are put together without an overflow exactly if the numbers of all their words and of
all their steps fit 64 bits.** No number on the way is larger. The induction is on the reports that
are still to come. -/
theorem foldlM_extend?_eq_ok_iff {rs : List Report} {r joined : Report}
    (hfits : r.words < 2 ^ 64 ∧ r.steps < 2 ^ 64) : rs.foldlM extend? r = .ok joined ↔
      joined = r.extend (concat rs) ∧ joined.words < 2 ^ 64 ∧ joined.steps < 2 ^ 64 := by
  induction rs generalizing r with
  | nil =>
    rw [List.foldlM_nil, show concat [] = {} from rfl, extend_empty]
    constructor
    · rintro ⟨⟩
      exact ⟨rfl, hfits⟩
    · rintro ⟨rfl, -⟩
      rfl
  | cons r' rs ih =>
    rw [List.foldlM_cons, concat_cons, ← extend_assoc]
    by_cases hnext : (r.extend r').words < 2 ^ 64 ∧ (r.extend r').steps < 2 ^ 64
    · rw [extend?_eq_ok_iff.2 ⟨rfl, hnext⟩]
      exact ih hnext
    · have hfails : r.extend? r' = .error .outOfRange := if_neg hnext
      rw [hfails]
      refine ⟨nofun, ?_⟩
      rintro ⟨rfl, hwords, hsteps⟩
      exact absurd ⟨Nat.lt_of_le_of_lt (Nat.le_add_right _ _) hwords,
        Nat.lt_of_le_of_lt (Nat.le_add_right _ _) hsteps⟩ hnext

end Report

/-- The report of some sentences and of those behind them, put together. -/
theorem Model.report_append (m : Model) (front behind : List (List Word)) :
    m.report (front ++ behind) = (m.report front).extend (m.report behind) := by
  simp [report, Report.extend]

/-- What scoring a corpus comes to when it is not divided. -/
def Model.scoreCorpus (m : Model) (capacity : Nat) (words : List Word) : Except Error Report :=
  match words.getLast? with
  | none => .error (.input .empty)
  | some last =>
    if last ≠ m.vocabulary.endSentence then .error (.input (.endsWith last))
    else m.scoreStream capacity (words.map .ok)

/-- A corpus that can be scored ends with the end of a sentence. -/
theorem Model.getLast?_of_scoreCorpus {m : Model} {capacity : Nat} {words : List Word}
    {report : Report} (h : m.scoreCorpus capacity words = .ok report) :
    words.getLast? = some m.vocabulary.endSentence := by
  unfold scoreCorpus at h
  split at h
  next => cases h
  next last hlast =>
    split at h
    next => cases h
    next heos => rw [hlast, Decidable.not_not.1 heos]

namespace Scorer

variable {s s' : Scorer} {words : List Word}

/-- The end of a sentence. -/
abbrev eos (s : Scorer) : Word := s.model.vocabulary.endSentence

/-- Where a corpus is cut. -/
def spans (s : Scorer) (words : List Word) : List Span :=
  corpusSpans words s.eos s.settings.threads

/-- The parts that a corpus is cut into. -/
def parts (s : Scorer) (words : List Word) : List (List Word) :=
  (s.spans words).map (Span.slice · words)

theorem threads_pos (s : Scorer) : 0 < s.settings.threads :=
  (PipelineSettings.validate_eq_ok_iff.1 s.settings_valid).2.1.1

/-- There are never so many threads that a list of the parts could not be held. -/
theorem corpusSpans?_eq (s : Scorer) (words : List Word) :
    corpusSpans? words s.eos s.settings.threads = .ok (s.spans words) := by
  have hthreads := (PipelineSettings.validate_eq_ok_iff.1 s.settings_valid).2.1.2
  exact corpusSpans?_of_room (by unfold maxBytes; omega) words s.eos

/-- A new ring scores a stream as one slot would. -/
theorem scoreItems_eq (s : Scorer) (items : List Item) :
    s.scoreItems items = s.model.scoreStream s.settings.maxWords items := by
  obtain ⟨ring, hring⟩ : ∃ ring, Ring.ofSettings s.model s.settings = .ok ring := by
    rw [Ring.ofSettings, s.settings_valid]
    exact ⟨_, rfl⟩
  rw [scoreItems, hring]
  exact Ring.score_after hring [] items

/-- Words that end with the end of a sentence hold at least one, so the report of a part is that of
its sentences. -/
theorem scorePart_eq (h : words.getLast? = some s.eos) :
    s.scorePart words =
      (s.model.vocabulary.sentences s.settings.maxWords (words.map .ok)).map s.model.report := by
  rw [scorePart, scoreItems_eq, Model.scoreStream]
  match hfound : s.model.vocabulary.sentences s.settings.maxWords (words.map .ok) with
  | .error e => rfl
  | .ok [] =>
    have hnil := (Vocabulary.sentences_eq_ok_iff.1 hfound).1
    rw [List.flatten_nil, List.map_nil, List.map_eq_nil_iff] at hnil
    rw [hnil] at h
    cases h
  | .ok (sentence :: more) => rfl

/-- **The reports of parts, put together, are the report of the corpus.** So is the first error. -/
theorem mapM_scorePart {parts : List (List Word)} (h : ∀ part ∈ parts, part.getLast? = some s.eos) :
    (parts.mapM s.scorePart).map Report.concat =
      (s.model.vocabulary.sentences s.settings.maxWords (parts.flatten.map .ok)).map
        s.model.report := by
  induction parts with
  | nil =>
    rw [List.flatten_nil, List.map_nil, Vocabulary.sentences_nil]
    rfl
  | cons part parts ih =>
    rw [List.forall_mem_cons] at h
    have ih := ih h.2
    rw [List.mapM_cons, scorePart_eq h.1, List.flatten_cons, List.map_append,
      Vocabulary.sentences_append h.1]
    cases s.model.vocabulary.sentences s.settings.maxWords (part.map .ok) with
    | error e => rfl
    | ok front =>
      -- what the other parts come to is known from the induction
      cases hbehind : s.model.vocabulary.sentences s.settings.maxWords (parts.flatten.map .ok) with
      | error e =>
        rw [hbehind] at ih
        rw [map_eq_error_iff.1 ih]
        rfl
      | ok behind =>
        rw [hbehind] at ih
        obtain ⟨reports, hreports, hconcat⟩ := map_eq_ok_iff.1 ih
        rw [hreports]
        show Except.ok (Report.concat (s.model.report front :: reports)) =
          .ok (s.model.report (front ++ behind))
        rw [Report.concat_cons, hconcat, Model.report_append]

theorem scoreParts_eq_mapM (s : Scorer) (words : List Word) :
    s.scoreParts words (s.spans words) =
      ((s.parts words).mapM s.scorePart).map Report.concat := by
  rw [parts, List.mapM_map]
  unfold scoreParts
  show ((s.spans words).mapM (s.scorePart ∘ (Span.slice · words)) >>= _) = _
  cases (s.spans words).mapM (s.scorePart ∘ (Span.slice · words)) <;> rfl

/-- Parts that are scored one after another come to what the undivided corpus does. -/
theorem scoreParts_eq (h : words.getLast? = some s.eos) :
    s.scoreParts words (s.spans words) = s.scorePart words := by
  obtain ⟨hflatten, hends, -⟩ := corpusSpans_parts h s.threads_pos
  have hparts : ∀ part ∈ s.parts words, part.getLast? = some s.eos := by
    intro part hpart
    obtain ⟨span, hspan, rfl⟩ := List.mem_map.1 hpart
    exact hends span hspan
  rw [scoreParts_eq_mapM, mapM_scorePart hparts, scorePart_eq h]
  rw [parts, spans, hflatten]

/-- Scores a corpus, where scoring its parts side by side comes to a given outcome. -/
def scoreWordsBy (s : Scorer) (words : List Word) (outcome : Except Error Report) :
    Except Error RunReport :=
  match words.getLast? with
  | none => .error (.input .empty)
  | some last =>
    if last ≠ s.eos then .error (.input (.endsWith last))
    else do
      let r ←
        if 1 < s.settings.threads ∧ 1 < (s.spans words).length then outcome
        else s.scorePart words
      .ok (s.report r (s.spans words).length)

/-- Parts are scored one after another. -/
theorem scoreWords_eq_by (s : Scorer) (words : List Word) :
    s.scoreWords words = s.scoreWordsBy words (s.scoreParts words (s.spans words)) := by
  unfold scoreWords scoreWordsBy
  simp only [s.corpusSpans?_eq words]
  rfl

/-- **Scoring a corpus part by part comes to what the undivided corpus does**, with the number of
parts noted down. -/
theorem scoreWords_eq (s : Scorer) (words : List Word) :
    s.scoreWords words = (s.model.scoreCorpus s.settings.maxWords words).map
      (s.report · (s.spans words).length) := by
  rw [scoreWords_eq_by]
  unfold scoreWordsBy Model.scoreCorpus
  cases hlast : words.getLast? with
  | none => rfl
  | some last =>
    dsimp only
    split
    next => rfl
    next heos =>
      obtain rfl : last = s.eos := Decidable.not_not.1 heos
      have hundivided : s.scorePart words =
          s.model.scoreStream s.settings.maxWords (words.map .ok) := scoreItems_eq s _
      simp only [scoreParts_eq hlast, ite_self, hundivided]
      cases s.model.scoreStream s.settings.maxWords (words.map .ok) <;> rfl

/-- What scoring parts side by side may come to: the reports of all of them, put together in their
order, or the error of any one of them. -/
inductive PartsOutcome (s : Scorer) (parts : List (List Word)) : Except Error Report → Prop where
  | joined {reports : List Report} : parts.map s.scorePart = reports.map .ok →
      PartsOutcome s parts (.ok (Report.concat reports))
  | failed {part : List Word} {e : Error} : part ∈ parts → s.scorePart part = .error e →
      PartsOutcome s parts (.error e)

/-- What scoring a corpus may come to when its parts are scored in any order. -/
def Outcome (s : Scorer) (words : List Word) (result : Except Error RunReport) : Prop :=
  ∃ outcome, s.PartsOutcome (s.parts words) outcome ∧ result = s.scoreWordsBy words outcome

/-- Scoring parts one after another is one of the orders. -/
theorem partsOutcome_mapM (s : Scorer) (parts : List (List Word)) :
    s.PartsOutcome parts ((parts.mapM s.scorePart).map Report.concat) := by
  cases h : parts.mapM s.scorePart with
  | error e =>
    obtain ⟨part, hpart, he⟩ := exists_of_mapM_eq_error h
    exact .failed hpart he
  | ok reports => exact .joined (mapM_eq_ok_iff.1 h)

/-- Only the error depends on the order. -/
theorem PartsOutcome.eq_ok_iff {parts : List (List Word)} {outcome : Except Error Report}
    {report : Report} (h : s.PartsOutcome parts outcome) :
    outcome = .ok report ↔ (parts.mapM s.scorePart).map Report.concat = .ok report := by
  cases h with
  | joined hall =>
    rw [mapM_eq_ok_iff.2 hall]
    rfl
  | @failed part e hpart he =>
    refine ⟨nofun, ?_⟩
    intro h
    obtain ⟨reports, hreports, -⟩ := map_eq_ok_iff.1 h
    -- the part that failed would have a report
    have hmem := List.mem_map_of_mem (f := s.scorePart) hpart
    rw [mapM_eq_ok_iff.1 hreports, he] at hmem
    obtain ⟨r, -, hr⟩ := List.mem_map.1 hmem
    cases hr

/-- The parts of a corpus may be scored one after another. -/
theorem outcome_scoreWords (s : Scorer) (words : List Word) :
    s.Outcome words (s.scoreWords words) :=
  ⟨_, s.partsOutcome_mapM (s.parts words), by rw [← scoreParts_eq_mapM, scoreWords_eq_by]⟩

/-- **Scoring the parts in any order comes to what scoring them one after another does**, but for
which error is returned. -/
theorem Outcome.eq_ok_iff {result : Except Error RunReport} {r : RunReport}
    (h : s.Outcome words result) : result = .ok r ↔ s.scoreWords words = .ok r := by
  obtain ⟨outcome, houtcome, rfl⟩ := h
  have hsame : ∀ report, outcome = .ok report ↔
      s.scoreParts words (s.spans words) = .ok report := by
    intro report
    rw [houtcome.eq_ok_iff, scoreParts_eq_mapM]
  rw [scoreWords_eq_by]
  unfold scoreWordsBy
  cases words.getLast? with
  | none => rfl
  | some last =>
    dsimp only
    split
    next => rfl
    next =>
      split
      next =>
        cases outcome with
        | ok report => rw [(hsame report).1 rfl]
        | error e =>
          cases hparts : s.scoreParts words (s.spans words) with
          | error e' => exact ⟨nofun, nofun⟩
          | ok report => exact nomatch (hsame report).2 hparts
      next => rfl

theorem scoreWords_eq_ok_iff {r : RunReport} :
    s.scoreWords words = .ok r ↔ ∃ report,
      s.model.scoreCorpus s.settings.maxWords words = .ok report ∧
        s.report report (s.spans words).length = r := by
  rw [scoreWords_eq, map_eq_ok_iff]

/-- A corpus is scored in at least one part, and in no more than there are threads. -/
theorem threads_of_scoreWords_eq_ok {r : RunReport} (h : s.scoreWords words = .ok r) :
    1 ≤ r.threads ∧ r.threads ≤ s.settings.threads := by
  obtain ⟨report, hcorpus, rfl⟩ := scoreWords_eq_ok_iff.1 h
  exact (corpusSpans_parts (Model.getLast?_of_scoreCorpus hcorpus) s.threads_pos).2.2

/-- **Threads and depth leave no trace.** Two scorers of one model with room for the same sentences,
whatever their depths and numbers of threads and in whatever order the parts are scored, score a
corpus with the same total, or both fail; and with the same error, if the parts are scored one after
another. -/
theorem outcome_neutral (hmodel : s.model = s'.model)
    (hmax : s.settings.maxWords = s'.settings.maxWords) (words : List Word) :
    (∀ result result', s.Outcome words result → s'.Outcome words result' →
      ((∃ r, result = .ok r) ↔ ∃ r', result' = .ok r') ∧
      ∀ r r', result = .ok r → result' = .ok r' →
        (r.total = r'.total ∧ r.sentences = r'.sentences ∧ r.words = r'.words ∧
          r.steps = r'.steps) ∧
        (1 ≤ r.threads ∧ r.threads ≤ s.settings.threads) ∧
        1 ≤ r'.threads ∧ r'.threads ≤ s'.settings.threads) ∧
    (s.Outcome words (s.scoreWords words) ∧ s'.Outcome words (s'.scoreWords words)) ∧
    ∀ e, s.scoreWords words = .error e ↔ s'.scoreWords words = .error e := by
  -- both come to the outcome of the undivided corpus
  have hleft := s.scoreWords_eq words
  have hright := s'.scoreWords_eq words
  rw [← hmodel, ← hmax] at hright
  refine ⟨?_, ⟨s.outcome_scoreWords words, s'.outcome_scoreWords words⟩, ?_⟩
  · intro result result' h h'
    constructor
    · simp only [h.eq_ok_iff, h'.eq_ok_iff, hleft, hright]
      cases s.model.scoreCorpus s.settings.maxWords words with
      | error e => exact ⟨nofun, nofun⟩
      | ok report => exact ⟨fun _ => ⟨_, rfl⟩, fun _ => ⟨_, rfl⟩⟩
    · intro r r' hr hr'
      rw [h.eq_ok_iff] at hr
      rw [h'.eq_ok_iff] at hr'
      refine ⟨?_, threads_of_scoreWords_eq_ok hr, threads_of_scoreWords_eq_ok hr'⟩
      obtain ⟨report, hreport, rfl⟩ := scoreWords_eq_ok_iff.1 hr
      obtain ⟨report', hreport', rfl⟩ := scoreWords_eq_ok_iff.1 hr'
      rw [← hmodel, ← hmax, hreport] at hreport'
      cases hreport'
      exact ⟨rfl, rfl, rfl, rfl⟩
  · intro e
    rw [hleft, hright]
    cases s.model.scoreCorpus s.settings.maxWords words with
    | error e' => exact Iff.rfl
    | ok report => exact ⟨nofun, nofun⟩

/-- Three sentences scored in three parts, by rings of two slots, and undivided in five. -/
theorem outcome_neutral_three :
    ∃ s s' : Scorer, (s.settings.depth = 2 ∧ s'.settings.depth = 5) ∧
      (s.model = s'.model ∧ s.settings.maxWords = s'.settings.maxWords) ∧
      ∃ r r', s.scoreWords [0, 2, 1, 2, 0, 2] = .ok r ∧ s'.scoreWords [0, 2, 1, 2, 0, 2] = .ok r' ∧
        r.threads = 3 ∧ r'.threads = 1 ∧ r.sentences = 3 ∧ r.total = r'.total := by
  let s : Scorer := ⟨Ring.flatModel, { depth := 2, threads := 3 }, rfl⟩
  let s' : Scorer := ⟨Ring.flatModel, { depth := 5 }, rfl⟩
  have hinside : ∀ sentence ∈ [[0, 2], [1, 2], [0, 2]], ∀ word ∈ sentence, word < (3 : Word) := by
    simp
  have hsentences : ∀ sentence ∈ [[0, 2], [1, 2], [0, 2]],
      IsSentence Ring.flatModel.vocabulary 4096 sentence := by
    intro sentence hsentence
    refine ⟨?_, hinside sentence hsentence, by revert sentence; decide⟩
    revert sentence
    simp only [List.forall_mem_cons]
    exact ⟨⟨[0], rfl, by decide⟩, ⟨[1], rfl, by decide⟩, ⟨[0], rfl, by decide⟩, by simp⟩
  have hcorpus : s.model.scoreCorpus s.settings.maxWords [0, 2, 1, 2, 0, 2] =
      .ok (Ring.flatModel.report [[0, 2], [1, 2], [0, 2]]) :=
    Model.scoreStream_eq_ok_iff.2 ⟨_, by simp, rfl, hsentences, rfl⟩
  have hrun := s.scoreWords_eq [0, 2, 1, 2, 0, 2]
  rw [hcorpus] at hrun
  obtain ⟨hneutral, ⟨houtcome, houtcome'⟩, -⟩ :=
    outcome_neutral (show s.model = s'.model from rfl) rfl [0, 2, 1, 2, 0, 2]
  obtain ⟨hsame, hequal⟩ := hneutral _ _ houtcome houtcome'
  obtain ⟨r', hrun'⟩ := hsame.1 ⟨_, hrun⟩
  obtain ⟨⟨htotal, -⟩, -, hthreads'⟩ := hequal _ _ hrun hrun'
  have hspans : s.spans [0, 2, 1, 2, 0, 2] = corpusSpans [0, 2, 1, 2, 0, 2] 2 3 := rfl
  have hthreads : (s.spans [0, 2, 1, 2, 0, 2]).length = 3 := by
    rw [hspans]
    decide
  exact ⟨s, s', ⟨rfl, rfl⟩, ⟨rfl, rfl⟩, _, r', hrun, hrun', hthreads,
    Nat.le_antisymm hthreads'.2 hthreads'.1, rfl, htotal⟩

end Scorer

end Ngram
