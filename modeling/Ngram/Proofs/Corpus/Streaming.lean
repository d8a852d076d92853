import Ngram.Proofs.Corpus.Delivery
import Ngram.Proofs.Corpus.Threads
import Ngram.Proofs.Schedule.Faults

/-!
# Scoring a stream and scoring a buffer

A stream is scored as it is read, and whatever is wrong with it comes up on the way. A buffer is
checked for its length, read as a whole, checked for its last word and only then cut and scored. The
two may find different faults first, but they accept the same bytes, and score them alike.

> `scoreStream_eq_ok_iff_corpus`: a stream that can be scored is a corpus that can be scored.
> `OutcomeBytes.eq_ok_iff`: scoring the parts of a buffer in any order makes no difference.
> `scoreStream_agrees`: however a source cuts its bytes, one thread that scores them as they come
> agrees with any number of threads that score the buffer.
-/

namespace Ngram

theorem EndsOnce.getLast?_eq {last : Word} {words : List Word} (h : EndsOnce last words) :
    words.getLast? = some last := by
  obtain ⟨front, rfl, -⟩ := h
  exact List.getLast?_concat

/-- A concatenation of sentences ends as they do. -/
theorem getLast?_flatten_of_endsOnce {last : Word} {sentences : List (List Word)}
    (hne : sentences ≠ []) (h : ∀ s ∈ sentences, EndsOnce last s) :
    sentences.flatten.getLast? = some last := by
  rcases List.eq_nil_or_concat sentences with rfl | ⟨front, s, rfl⟩
  · exact absurd rfl hne
  · have hs : EndsOnce last s := h s (by simp)
    rw [List.concat_eq_append, List.flatten_append, List.flatten_singleton, List.getLast?_append,
      hs.getLast?_eq]
    rfl

/-- **A stream that can be scored is a corpus that can be scored**, with the same report. -/
theorem Model.scoreStream_eq_ok_iff_corpus {m : Model} {capacity : Nat} {items : List Item}
    {report : Report} :
    m.scoreStream capacity items = .ok report ↔
      ∃ words : List Word, items = words.map .ok ∧ m.scoreCorpus capacity words = .ok report := by
  constructor
  · intro h
    obtain ⟨sentences, hne, rfl, hall, -⟩ := scoreStream_eq_ok_iff.1 h
    have hlast := getLast?_flatten_of_endsOnce hne fun s hs => (hall s hs).ends
    refine ⟨sentences.flatten, rfl, ?_⟩
    unfold scoreCorpus
    rw [hlast]
    dsimp only
    rw [if_neg (not_not_intro rfl), h]
  · intro h
    obtain ⟨words, rfl, hcorpus⟩ := h
    have hlast := getLast?_of_scoreCorpus hcorpus
    unfold scoreCorpus at hcorpus
    rw [hlast] at hcorpus
    dsimp only at hcorpus
    rwa [if_neg (not_not_intro rfl)] at hcorpus

namespace Scorer

variable {s s' : Scorer} {source : Source} {bs : Bytes}

/-- What scoring a buffer may come to when the parts of its corpus are scored in any order. -/
inductive OutcomeBytes (s : Scorer) (bs : Bytes) : Except Error RunReport → Prop where
  | decoded {words : List Word} {result : Except Error RunReport} :
      s.width.decode bs = .ok words → s.Outcome words result → OutcomeBytes s bs result
  | refused {e : Error} : s.width.decode bs = .error e → OutcomeBytes s bs (.error e)

theorem scoreBytes_of_decode {words : List Word} (h : s.width.decode bs = .ok words) :
    s.scoreBytes bs = s.scoreWords words := by
  rw [scoreBytes, h]
  rfl

theorem scoreBytes_of_refused {e : Error} (h : s.width.decode bs = .error e) :
    s.scoreBytes bs = .error e := by
  rw [scoreBytes, h]
  rfl

/-- Scoring the parts one after another is one of the orders. -/
theorem outcomeBytes_scoreBytes (s : Scorer) (bs : Bytes) :
    s.OutcomeBytes bs (s.scoreBytes bs) := by
  cases h : s.width.decode bs with
  | error e =>
    rw [scoreBytes_of_refused h]
    exact .refused h
  | ok words =>
    rw [scoreBytes_of_decode h]
    exact .decoded h (s.outcome_scoreWords words)

/-- Only the error depends on the order. -/
theorem OutcomeBytes.eq_ok_iff {result : Except Error RunReport} {r : RunReport}
    (h : s.OutcomeBytes bs result) : result = .ok r ↔ s.scoreBytes bs = .ok r := by
  cases h with
  | decoded hdecode houtcome => rw [scoreBytes_of_decode hdecode, houtcome.eq_ok_iff]
  | refused hdecode => rw [scoreBytes_of_refused hdecode]

theorem scoreBytes_eq_ok_iff {r : RunReport} :
    s.scoreBytes bs = .ok r ↔ ∃ words report, s.width.decode bs = .ok words ∧
      s.model.scoreCorpus s.settings.maxWords words = .ok report ∧
      s.report report (s.spans words).length = r := by
  constructor
  · intro h
    obtain ⟨words, hdecode, hwords⟩ := exists_of_bind_eq_ok h
    obtain ⟨report, hreport⟩ := scoreWords_eq_ok_iff.1 hwords
    exact ⟨words, report, hdecode, hreport⟩
  · intro h
    obtain ⟨words, report, hdecode, hreport⟩ := h
    rw [scoreBytes_of_decode hdecode]
    exact scoreWords_eq_ok_iff.2 ⟨report, hreport⟩

/-- The items that a source delivers. -/
def itemsOf (s : Scorer) (source : Source) : List Item :=
  WordStream.items { source, width := s.width }

/-- One thread scores a stream as one slot would. -/
theorem scoreStream_eq (hthreads : s.settings.threads = 1) (source : Source) :
    s.scoreStream source =
      (s.model.scoreStream s.settings.maxWords (s.itemsOf source)).map (s.report · 1) := by
  unfold scoreStream
  rw [if_neg (by omega)]
  show (s.scoreItems (s.itemsOf source) >>= _) = _
  rw [scoreItems_eq]
  cases s.model.scoreStream s.settings.maxWords (s.itemsOf source) <;> rfl

/-- A part of a corpus that cannot be scored has a fault. -/
theorem isCorpusFault_of_scorePart {part : List Word} {e : Error}
    (h : s.scorePart part = .error e) : e.IsCorpusFault s.settings.maxWords := by
  rw [scorePart, scoreItems_eq, Model.scoreStream_eq_error_iff] at h
  exact h.isCorpusFault (by simp)

/-- A stream that cannot be scored has a fault. -/
theorem isCorpusFault_of_scoreStream (hthreads : s.settings.threads = 1) (h : source.Delivers bs)
    {e : Error} (he : s.scoreStream source = .error e) :
    e.IsCorpusFault s.settings.maxWords := by
  rw [scoreStream_eq hthreads, map_eq_error_iff, Model.scoreStream_eq_error_iff] at he
  exact he.isCorpusFault fun e' he' => WordStream.exists_fault_of_mem_items h he'

/-- A buffer that cannot be scored has a fault, in whatever order its parts are scored. -/
theorem OutcomeBytes.isCorpusFault {e : Error} (h : s.OutcomeBytes bs (.error e)) :
    e.IsCorpusFault s.settings.maxWords := by
  generalize hresult : (Except.error e : Except Error RunReport) = result at h
  cases h with
  | refused hdecode =>
    cases hresult
    obtain ⟨groups, rest, hsplits⟩ := s.width.exists_splits bs
    rw [WordWidth.decode_of_splits hsplits] at hdecode
    split at hdecode
    next =>
      obtain ⟨group, -, hgroup⟩ := exists_of_mapM_eq_error hdecode
      exact Or.inl (WordWidth.exists_fault_of_wordOf hgroup)
    next => cases hdecode; exact Or.inl ⟨_, rfl⟩
  | decoded _ houtcome =>
    obtain ⟨outcome, hparts, rfl⟩ := houtcome
    unfold scoreWordsBy at hresult
    split at hresult
    next => cases hresult; exact Or.inl ⟨_, rfl⟩
    next =>
      split at hresult
      next => cases hresult; exact Or.inl ⟨_, rfl⟩
      next =>
        split at hresult
        next =>
          cases hparts with
          | joined => cases hresult
          | failed _ hpart => cases hresult; exact isCorpusFault_of_scorePart hpart
        next =>
          cases hwhole : s.scorePart _ with
          | ok report => rw [hwhole] at hresult; cases hresult
          | error e' =>
            rw [hwhole] at hresult
            cases hresult
            exact isCorpusFault_of_scorePart hwhole

/-- **Scoring bytes as they come agrees with scoring the buffer.** However a source cuts them, and
however many slots and threads the other scorer has, as long as both have room for the same
sentences: they succeed on the same bytes, with the same total, and otherwise report faults of the
corpus, if not always the same one. -/
theorem scoreStream_agrees (hmodel : s.model = s'.model)
    (hmax : s.settings.maxWords = s'.settings.maxWords) (hthreads : s.settings.threads = 1)
    (h : source.Delivers bs) :
    s'.OutcomeBytes bs (s'.scoreBytes bs) ∧
    ∀ result, s'.OutcomeBytes bs result →
      ((∃ r, s.scoreStream source = .ok r) ↔ ∃ r', result = .ok r') ∧
      (∀ r r', s.scoreStream source = .ok r → result = .ok r' →
        r.total = r'.total ∧ r.sentences = r'.sentences ∧ r.words = r'.words ∧
          r.steps = r'.steps) ∧
      ∀ e, s.scoreStream source = .error e ∨ result = .error e →
        e.IsCorpusFault s.settings.maxWords := by
  have hwidth : s.width = s'.width := by rw [width, width, hmodel]
  -- both come to the corpus that the bytes hold, if they hold one
  have hstream : ∀ r, s.scoreStream source = .ok r ↔ ∃ words report,
      s.width.decode bs = .ok words ∧
      s.model.scoreCorpus s.settings.maxWords words = .ok report ∧ s.report report 1 = r := by
    intro r
    rw [scoreStream_eq hthreads, map_eq_ok_iff]
    simp only [Model.scoreStream_eq_ok_iff_corpus, itemsOf, WordStream.decode_eq_ok_iff h]
    constructor
    · intro h
      obtain ⟨report, ⟨words, hitems, hcorpus⟩, hr⟩ := h
      exact ⟨words, report, hitems, hcorpus, hr⟩
    · intro h
      obtain ⟨words, report, hitems, hcorpus, hr⟩ := h
      exact ⟨report, ⟨words, hitems, hcorpus⟩, hr⟩
  have hbuffer : ∀ r, s'.scoreBytes bs = .ok r ↔ ∃ words report,
      s.width.decode bs = .ok words ∧
      s.model.scoreCorpus s.settings.maxWords words = .ok report ∧
      s'.report report (s'.spans words).length = r := by
    intro r
    rw [scoreBytes_eq_ok_iff, hwidth, hmodel, hmax]
  refine ⟨s'.outcomeBytes_scoreBytes bs, fun result hresult => ⟨?_, ?_, ?_⟩⟩
  · simp only [hresult.eq_ok_iff, hstream, hbuffer]
    constructor
    · intro h
      obtain ⟨_, words, report, hdecode, hcorpus, -⟩ := h
      exact ⟨_, words, report, hdecode, hcorpus, rfl⟩
    · intro h
      obtain ⟨_, words, report, hdecode, hcorpus, -⟩ := h
      exact ⟨_, words, report, hdecode, hcorpus, rfl⟩
  · intro r r' hr hr'
    rw [hresult.eq_ok_iff, hbuffer] at hr'
    obtain ⟨words, report, hdecode, hcorpus, rfl⟩ := (hstream r).1 hr
    obtain ⟨words', report', hdecode', hcorpus', rfl⟩ := hr'
    rw [hdecode] at hdecode'
    cases hdecode'
    rw [hcorpus] at hcorpus'
    cases hcorpus'
    exact ⟨rfl, rfl, rfl, rfl⟩
  · intro e he
    rcases he with he | rfl
    · exact isCorpusFault_of_scoreStream hthreads h he
    · rw [hmax]
      exact hresult.isCorpusFault

/-- A model of order one whose words take two bytes each. -/
def wideModel : Model :=
  { vocabulary := { bound := 300 }
    store :=
      { Ring.flatModel.store with
        unigrams := Array.replicate 300 ⟨⟨0xbf800000⟩, .zero, ⟨0xbf800000⟩⟩
        unigrams_pos := by rw [Array.size_replicate]; decide
        unigrams_lt := by rw [Array.size_replicate]; decide }
    vocabulary_valid := ⟨by decide, by decide, by decide, by decide⟩
    bound_eq := by simp only [Store.bound, Array.size_replicate]; rfl }

/-- Two sentences that are cut inside of their words, and their buffer in three threads. -/
theorem scoreStream_agrees_cut :
    ∃ s s' : Scorer, (s.model = s'.model ∧ s.settings.maxWords = s'.settings.maxWords ∧
      s.settings.threads = 1 ∧ s'.settings.threads = 3) ∧
      let source : Source := [.interrupted, .data [0], .data [0, 2], .interrupted,
        .data [0, 43, 1, 2], .data [0], .interrupted]
      let bs : Bytes := [0, 0, 2, 0, 43, 1, 2, 0]
      source.Delivers bs ∧ ∃ r r', s.scoreStream source = .ok r ∧ s'.scoreBytes bs = .ok r' ∧
        r.total = r'.total ∧ r'.sentences = 2 := by
  let s : Scorer := ⟨wideModel, { depth := 2 }, rfl⟩
  let s' : Scorer := ⟨wideModel, { depth := 5, threads := 3 }, rfl⟩
  have hdelivers : Source.Delivers [.interrupted, .data [0], .data [0, 2], .interrupted,
      .data [0, 43, 1, 2], .data [0], .interrupted] [0, 0, 2, 0, 43, 1, 2, 0] :=
    .interrupted (.data (by decide) (.data (by decide) (.interrupted (.data (by decide)
      (.data (by decide) (.interrupted .ended))))))
  have hsplits : WordWidth.two.Splits [0, 0, 2, 0, 43, 1, 2, 0]
      [[0, 0], [2, 0], [43, 1], [2, 0]] [] := ⟨rfl, by decide, by decide⟩
  have hdecode : s'.width.decode [0, 0, 2, 0, 43, 1, 2, 0] = .ok [0, 2, 299, 2] := by
    have hwidth : s'.width = .two := rfl
    rw [hwidth, WordWidth.decode_of_splits hsplits]
    rfl
  have hinside : ∀ sentence ∈ [[0, 2], [299, 2]], ∀ word ∈ sentence, word < (300 : Word) := by
    simp
  have hsentences : ∀ sentence ∈ [[0, 2], [299, 2]],
      IsSentence wideModel.vocabulary 4096 sentence := by
    intro sentence hsentence
    refine ⟨?_, hinside sentence hsentence, by revert sentence; decide⟩
    revert sentence
    simp only [List.forall_mem_cons]
    exact ⟨⟨[0], rfl, by decide⟩, ⟨[299], rfl, by decide⟩, by simp⟩
  have hcorpus : s'.model.scoreCorpus s'.settings.maxWords [0, 2, 299, 2] =
      .ok (wideModel.report [[0, 2], [299, 2]]) :=
    Model.scoreStream_eq_ok_iff.2 ⟨_, by simp, rfl, hsentences, rfl⟩
  have hbuffer := scoreBytes_eq_ok_iff.2 ⟨_, _, hdecode, hcorpus, rfl⟩
  obtain ⟨houtcome, hagrees⟩ := scoreStream_agrees (show s.model = s'.model from rfl) rfl rfl
    hdelivers
  obtain ⟨hsame, hequal, -⟩ := hagrees _ houtcome
  obtain ⟨r, hstream⟩ := hsame.2 ⟨_, hbuffer⟩
  obtain ⟨htotal, -⟩ := hequal _ _ hstream hbuffer
  exact ⟨s, s', ⟨rfl, rfl, rfl, rfl⟩, hdelivers, r, _, hstream, hbuffer, htotal, rfl⟩

end Scorer

end Ngram
