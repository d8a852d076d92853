import Ngram.Proofs.Schedule.Interleaving
import Ngram.Proofs.Workload.Harvest

/-!
# Synthetic workloads are well formed

Whatever is drawn, a workload is refused for nothing but the keys of its n-grams, which are hashes
and may coincide. Its corpus consists of as many sentences as were asked for, none of them too long,
of ordinary words and with its end, so that every ring with room for the longest sentence scores it.

> `exists_sentences`: the corpus, sentence by sentence.
> `exists_report`: the corpus is scored without an error.
> `WellMade`: all that holds of a workload.
> `generate_closed`: it holds whatever is drawn, and of the workload of a seed.
-/

namespace Ngram

namespace Synthetic

variable {σ : Type} {d : Draws σ} {spec : SyntheticSpec} {settings : TableSettings} {s : σ}
  {w : Workload} {e : Error}

/-! ## The corpus -/

/-- A sentence of the corpus is one of the training sentences or a new one, and has its end. -/
theorem drawQuery_cases (d : Draws σ) (spec : SyntheticSpec) (v : Vocabulary)
    (training : Array (List Word)) (s : σ) :
    (∃ sentence ∈ training, (drawQuery d spec v training s).1 = sentence ++ [v.endSentence]) ∨
      ∃ s', (drawQuery d spec v training s).1 =
        (drawSentence d v.bound spec.maxLength s').1 ++ [v.endSentence] := by
  unfold drawQuery
  by_cases hpos : 0 < training.size
  · simp only [hpos, dite_true]
    split
    next => exact Or.inl ⟨_, Array.getElem_mem _, rfl⟩
    next => exact Or.inr ⟨_, rfl⟩
  · simp only [hpos, dite_false]
    exact Or.inr ⟨s, rfl⟩

/-- The sentences of the corpus, with their ends. -/
def queried (d : Draws σ) (spec : SyntheticSpec) (s : σ) : List (List Word) :=
  let (training, _, s) :=
    train d spec.maxLength spec.training #[] (singles d spec s).1 (singles d spec s).2
  (Draws.times spec.sentences (drawQuery d spec (vocabulary spec) training) s).1.toList

theorem corpus_eq (d : Draws σ) (spec : SyntheticSpec) (s : σ) :
    (collect d spec s).2 = (queried d spec s).flatten := rfl

theorem length_queried (d : Draws σ) (spec : SyntheticSpec) (s : σ) :
    (queried d spec s).length = spec.sentences :=
  (Array.length_toList ..).trans (Draws.size_times ..)

/-- Each of them is an ordinary sentence with its end. -/
theorem ordinary_of_queried (hspec : spec.validate = .ok ()) :
    ∀ words ∈ queried d spec s, ∃ sentence,
      Ordinary spec.vocabularySize spec.maxLength sentence ∧
        words = sentence ++ [(vocabulary spec).endSentence] := by
  obtain ⟨-, hbound⟩ := SyntheticSpec.validate_eq_ok_iff.1 hspec
  obtain ⟨-, htrained, -⟩ := gains_collect d s hspec
  intro words hwords
  refine Draws.forall_mem_times (p := fun words => ∃ sentence,
    Ordinary spec.vocabularySize spec.maxLength sentence ∧
      words = sentence ++ [(vocabulary spec).endSentence]) (fun s₁ => ?_) words
    (Array.mem_toList_iff.1 hwords)
  rcases drawQuery_cases d spec (vocabulary spec) _ s₁ with
    ⟨sentence, hsentence, hquery⟩ | ⟨s₂, hquery⟩
  · exact ⟨sentence, htrained sentence (Array.mem_toList_iff.2 hsentence), hquery⟩
  · exact ⟨_, ordinary_drawSentence hbound spec.maxLength s₂, hquery⟩

/-- **The corpus, sentence by sentence.** -/
theorem exists_sentences (d : Draws σ) (s : σ) (hspec : spec.validate = .ok ()) :
    ∃ sentences : List (List Word), sentences.length = spec.sentences ∧
      (∀ sentence ∈ sentences, Ordinary spec.vocabularySize spec.maxLength sentence) ∧
      (collect d spec s).2 =
        (sentences.map (· ++ [(vocabulary spec).endSentence])).flatten := by
  have hqueried := ordinary_of_queried (d := d) (s := s) hspec
  -- without their ends, the sentences of the corpus are the ordinary ones
  refine ⟨(queried d spec s).map List.dropLast, by rw [List.length_map, length_queried], ?_, ?_⟩
  · intro sentence hsentence
    obtain ⟨words, hwords, rfl⟩ := List.mem_map.1 hsentence
    obtain ⟨sentence, hordinary, rfl⟩ := hqueried words hwords
    rw [List.dropLast_concat]
    exact hordinary
  · rw [corpus_eq, List.map_map]
    refine congrArg List.flatten ((List.map_id _).symm.trans (List.map_congr_left ?_))
    intro words hwords
    obtain ⟨sentence, -, rfl⟩ := hqueried words hwords
    simp

/-- With its end, an ordinary sentence is one that a ring takes, if it has room for it. -/
theorem Ordinary.isSentence {sentence : List Word} {capacity : Nat}
    (h : Ordinary spec.vocabularySize spec.maxLength sentence) (hbound : 4 ≤ spec.vocabularySize)
    (hroom : spec.maxLength < capacity) :
    IsSentence (vocabulary spec) capacity (sentence ++ [(vocabulary spec).endSentence]) := by
  refine ⟨⟨sentence, rfl, fun hmem => ?_⟩, ?_, ?_⟩
  · exact absurd (h.three_le _ hmem) (show ¬ (3 : Word) ≤ 2 by decide)
  · intro word hword
    rcases List.mem_append.1 hword with hword | hword
    · exact h.lt_bound word hword
    · rw [List.mem_singleton.1 hword]
      exact (valid_vocabulary hbound).endSentence_lt
  · rw [List.length_append, List.length_singleton]
    exact Nat.lt_of_le_of_lt h.length_le hroom

/-! ## The model -/

section Generated

variable (hspec : spec.validate = .ok ())

include hspec

theorem generateWith_eq_ok_iff : generateWith d spec settings s = .ok w ↔
    (collect d spec s).1.build settings = .ok w.model ∧ w.corpus = (collect d spec s).2 := by
  obtain ⟨model, corpus⟩ := w
  simp only [generateWith, hspec, bind, Except.bind]
  cases (collect d spec s).1.build settings with
  | error e => simp
  | ok m => simp [eq_comm]

theorem generateWith_eq_error_iff : generateWith d spec settings s = .error e ↔
    (collect d spec s).1.build settings = .error e := by
  simp only [generateWith, hspec, bind, Except.bind]
  cases (collect d spec s).1.build settings with
  | error e => simp
  | ok m => simp

/-- **The corpus is scored without an error**, by every ring that has room for its sentences. -/
theorem exists_report (hgenerate : generateWith d spec settings s = .ok w)
    (hsentences : 0 < spec.sentences) {settings' : PipelineSettings} {ring : Ring}
    (hring : Ring.ofSettings w.model settings' = .ok ring)
    (hroom : spec.maxLength < settings'.maxWords) (earlier : List (List Item)) :
    ∃ report, ((ring.after w.model earlier).score w.model (w.corpus.map .ok)).1 = .ok report ∧
      report.scores.size = spec.sentences ∧ report.words = w.corpus.length := by
  obtain ⟨hbuild, hcorpus⟩ := (generateWith_eq_ok_iff hspec).1 hgenerate
  obtain ⟨-, hbound⟩ := SyntheticSpec.validate_eq_ok_iff.1 hspec
  obtain ⟨-, -, hgains⟩ := gains_collect d s hspec
  have hvocabulary : w.model.vocabulary = vocabulary spec := by
    rw [← Builder.Visit.build_own] at hbuild
    rw [((Builder.Visit.own _).built_of_build hbuild).2.vocabulary, hgains.vocabulary]
  obtain ⟨sentences, hlength, hordinary, hflatten⟩ := exists_sentences d s hspec
  have hfound : ∀ words ∈ sentences.map (· ++ [(vocabulary spec).endSentence]),
      IsSentence w.model.vocabulary settings'.maxWords words := by
    intro words hwords
    obtain ⟨sentence, hsentence, rfl⟩ := List.mem_map.1 hwords
    rw [hvocabulary]
    exact (hordinary sentence hsentence).isSentence hbound hroom
  refine ⟨w.model.report (sentences.map (· ++ [(vocabulary spec).endSentence])), ?_, ?_, ?_⟩
  · rw [Ring.score_after hring]
    refine Model.scoreStream_eq_ok_iff.2 ⟨_, ?_, by rw [hcorpus, hflatten], hfound, rfl⟩
    rw [← List.length_pos_iff, List.length_map, hlength]
    exact hsentences
  · simp [Model.report, hlength]
  · rw [hcorpus, hflatten, List.length_flatten]
    rfl

/-- The model is made if and only if the keys of its n-grams can be told apart. -/
theorem generateWith_iff_keyed (hsettings : settings.validate = .ok ())
    (hroom : (collect d spec s).1.Room settings) : (∃ w, generateWith d spec settings s = .ok w) ↔
      ∀ length, 2 ≤ length → length ≤ spec.order → (collect d spec s).1.Keyed length := by
  obtain ⟨-, -, hgains⟩ := gains_collect d s hspec
  have horder : (collect d spec s).1.order = spec.order := hgains.order
  rw [← horder]
  constructor
  · intro h
    obtain ⟨w, hw⟩ := h
    have hbuild := ((generateWith_eq_ok_iff hspec).1 hw).1
    rw [← Builder.Visit.build_own] at hbuild
    exact ((Builder.Visit.own _).built_of_build hbuild).1.keyed
  · intro hkeyed
    obtain ⟨m, hm⟩ := (Builder.Visit.own _).build_eq_ok_iff.2
      ⟨hsettings, wellFormed_collect d s hspec, hkeyed, hroom.fits, hroom.longestFits⟩
    rw [Builder.Visit.build_own] at hm
    exact ⟨⟨m, (collect d spec s).2⟩, (generateWith_eq_ok_iff hspec).2 ⟨hm, rfl⟩⟩

/-- Otherwise a key is at fault: one that is reserved, or one that two n-grams share. -/
theorem isKeyFault_of_generateWith (hsettings : settings.validate = .ok ())
    (hroom : (collect d spec s).1.Room settings)
    (he : generateWith d spec settings s = .error e) : e.IsKeyFault ∧
      ∃ g ∈ (collect d spec s).1.grams, 2 ≤ g.length ∧ (g.key = 0 ∨
        ∃ g' ∈ (collect d spec s).1.grams, g'.length = g.length ∧ g' ≠ g ∧ g'.key = g.key) := by
  refine ⟨?_, ?_⟩
  · have hbuild := (generateWith_eq_error_iff hspec).1 he
    rw [← Builder.Visit.build_own] at hbuild
    exact (Builder.Visit.own _).isKeyFault_of_build hsettings (wellFormed_collect d s hspec) hroom
      hbuild
  · by_contra hnone
    have hkeyed : ∀ length, 2 ≤ length → length ≤ spec.order →
        (collect d spec s).1.Keyed length := by
      intro length hlow _
      refine ⟨fun g hg hlength hzero => hnone ⟨g, hg, by omega, Or.inl hzero⟩, ?_⟩
      intro g hg g' hg' hlength hlength' hkey
      by_contra hne
      exact hnone ⟨g', hg', by omega, Or.inr ⟨g, hg, hlength.trans hlength'.symm, hne, hkey⟩⟩
    obtain ⟨w, hw⟩ := (generateWith_iff_keyed (d := d) (s := s) hspec hsettings hroom).2 hkeyed
    rw [he] at hw
    cases hw

end Generated

/-- What holds of a workload that is made from a collection and a corpus. The collection holds the
single words and all parts of the padded training sentences, from two words up to the order, and
with an n-gram of three words or more both the one without its oldest and the one without its newest
word. The workload is made unless a key is reserved or shared by two n-grams of one length, which
then is the fault that is reported. The corpus is a concatenation of as many sentences as were asked
for, none of them too long, of ordinary words and with its end; and if there are any, every ring
that has room for the longest one scores it, also a used one. -/
structure WellMade (spec : SyntheticSpec) (b : Builder) (corpus : List Word)
    (outcome : Except Error Workload) : Prop where
  harvested : ∃ training : List (List Word), training.length = spec.training ∧
    (∀ sentence ∈ training, Ordinary spec.vocabularySize spec.maxLength sentence) ∧
    ∀ g, g ∈ b.grams ↔ (∃ word < spec.vocabularySize, g = [word]) ∨
      2 ≤ g.length ∧ g.length ≤ spec.order ∧
        ∃ sentence ∈ training, g <:+: (vocabulary spec).padded sentence
  closed : ∀ g ∈ b.grams, 3 ≤ g.length → g.tail ∈ b.grams ∧ g.dropLast ∈ b.grams
  made_iff : (∃ w, outcome = .ok w) ↔
    ∀ length, 2 ≤ length → length ≤ spec.order → b.Keyed length
  fault : ∀ e, outcome = .error e → e.IsKeyFault ∧
    ∃ g ∈ b.grams, 2 ≤ g.length ∧ (g.key = 0 ∨
      ∃ g' ∈ b.grams, g'.length = g.length ∧ g' ≠ g ∧ g'.key = g.key)
  sentences : ∃ sentences : List (List Word), sentences.length = spec.sentences ∧
    (∀ sentence ∈ sentences, Ordinary spec.vocabularySize spec.maxLength sentence) ∧
    corpus = (sentences.map (· ++ [(vocabulary spec).endSentence])).flatten
  corpus_eq : ∀ w, outcome = .ok w → w.corpus = corpus
  scored : ∀ w, outcome = .ok w → 0 < spec.sentences →
    ∀ (settings : PipelineSettings) (ring : Ring) earlier,
      Ring.ofSettings w.model settings = .ok ring → spec.maxLength < settings.maxWords →
      ∃ report, ((ring.after w.model earlier).score w.model (w.corpus.map .ok)).1 = .ok report ∧
        report.scores.size = spec.sentences ∧ report.words = w.corpus.length

/-- Whatever is drawn, the workload is well made. -/
theorem wellMade_generateWith (d : Draws σ) (s : σ) (hspec : spec.validate = .ok ())
    (hsettings : settings.validate = .ok ()) (hroom : (collect d spec s).1.Room settings) :
    WellMade spec (collect d spec s).1 (collect d spec s).2 (generateWith d spec settings s) where
  harvested :=
    have ⟨hlength, hordinary, _⟩ := gains_collect d s hspec
    ⟨trained d spec s, hlength, hordinary, fun _ => mem_collect_iff d s hspec⟩
  closed _ hg hthree := closed_collect d s hspec hg hthree
  made_iff := generateWith_iff_keyed hspec hsettings hroom
  fault _ he := isKeyFault_of_generateWith hspec hsettings hroom he
  sentences := exists_sentences d s hspec
  corpus_eq _ hw := ((generateWith_eq_ok_iff hspec).1 hw).2
  scored _ hw hsentences _ _ earlier hring hmax :=
    exists_report hspec hw hsentences hring hmax earlier

/-- From a seed, the draws are those of its stream of random words, if what is drawn can be held. -/
theorem generate_eq_of_fits (hfits : fits spec = true) :
    generate spec settings = generateWith ChaCha.draws spec settings (.ofSeed spec.seed) := by
  unfold generate generateWith
  rw [hfits]
  cases spec.validate with
  | error e => rfl
  | ok _ => rfl

/-- **Synthetic workloads are closed and well formed.** Whatever is drawn, and whatever the valid
settings that leave room for the buckets, the workload is well made. So is the workload of a seed,
whose draws are those of its stream of random words, if the training sentences and the longest
sentence can be held; if they cannot, none is made. -/
theorem generate_closed {spec : SyntheticSpec} {settings : TableSettings}
    (hspec : spec.validate = .ok ()) (hsettings : settings.validate = .ok ()) :
    (∀ (σ : Type) (d : Draws σ) (s : σ), (collect d spec s).1.Room settings →
      WellMade spec (collect d spec s).1 (collect d spec s).2
        (generateWith d spec settings s)) ∧
    (fits spec = true →
      generate spec settings = generateWith ChaCha.draws spec settings (.ofSeed spec.seed) ∧
      ((collect ChaCha.draws spec (.ofSeed spec.seed)).1.Room settings →
        WellMade spec (collect ChaCha.draws spec (.ofSeed spec.seed)).1
          (collect ChaCha.draws spec (.ofSeed spec.seed)).2 (generate spec settings))) ∧
    (fits spec = false → generate spec settings = .error .outOfRange) := by
  refine ⟨fun σ d s hroom => wellMade_generateWith d s hspec hsettings hroom, ?_, ?_⟩
  · intro hfits
    refine ⟨generate_eq_of_fits hfits, fun hroom => ?_⟩
    rw [generate_eq_of_fits hfits]
    exact wellMade_generateWith _ _ hspec hsettings hroom
  · intro hfits
    rw [generate, hspec, hfits]
    rfl

/-- The smallest vocabulary there can be, with one ordinary word. -/
def smallest : SyntheticSpec :=
  { order := 3, vocabularySize := 4, sentences := 2, maxLength := 2, training := 1, seed := 6 }

theorem validate_smallest : smallest.validate = .ok () := rfl

/-- The n-grams and the corpus of its seed. -/
abbrev smallestDrawn : Builder × List Word := collect ChaCha.draws smallest (.ofSeed 6)

/-- With one ordinary word there is one sentence of a length. -/
theorem trained_smallest : trained ChaCha.draws smallest (.ofSeed 6) = [[3, 3]] := by
  decide +kernel

/-- Its windows. -/
def smallestGrams : List Gram := [[1, 3], [3, 3], [3, 2], [1, 3, 3], [3, 3, 2]]

theorem mem_smallest {g : Gram} (hg : 2 ≤ g.length) :
    g ∈ smallestDrawn.1.grams ↔ g ∈ smallestGrams := by
  obtain ⟨-, -, hgains⟩ := gains_collect ChaCha.draws (.ofSeed 6) validate_smallest
  have hwindows : sentenceGrams (vocabulary smallest) smallest.order [3, 3] = smallestGrams := by
    decide
  rw [hgains.mem_iff, trained_smallest, ← hwindows]
  have hword : ¬ ∃ word < smallest.vocabularySize, g = [word] := by
    rintro ⟨word, -, rfl⟩
    exact absurd hg (by simp)
  simp [hword]

theorem count_smallest {length : Nat} (hlength : 2 ≤ length) :
    (smallestDrawn.1.ofLength length).length = Builder.countOf smallestGrams length :=
  Builder.length_ofLength_eq_countOf (by decide) fun _ hg => mem_smallest (hg ▸ hlength)

theorem room_smallest : smallestDrawn.1.Room {} := by
  have horder : smallestDrawn.1.order = 3 :=
    (gains_collect ChaCha.draws (.ofSeed 6) validate_smallest).2.2.order
  refine ⟨fun length hlow hhigh => ?_, ?_⟩
  · obtain rfl : length = 2 := by omega
    rw [count_smallest hlow]
    decide
  · rw [horder, count_smallest (by decide)]
    decide

theorem keyed_smallest {length : Nat} (hlength : 2 ≤ length) : smallestDrawn.1.Keyed length := by
  have hkeys : ∀ g ∈ smallestGrams, g.key ≠ 0 ∧
      ∀ g' ∈ smallestGrams, g.length = g'.length → g.key = g'.key → g = g' := by decide
  have hmem : ∀ g ∈ smallestDrawn.1.grams, g.length = length →
      g ∈ smallestGrams := fun g hg hsame => (mem_smallest (hsame ▸ hlength)).1 hg
  exact ⟨fun g hg hsame => (hkeys g (hmem g hg hsame)).1,
    fun g hg g' hg' hsame hsame' => (hkeys g (hmem g hg hsame)).2 g' (hmem g' hg' hsame')
      (hsame.trans hsame'.symm)⟩

/-- One ordinary word: the windows of the one training sentence have keys that can be told apart,
and both sentences of the corpus are scored. With `2 ^ 60` training sentences there is no
workload. -/
theorem generate_closed_smallest :
    (smallest.validate = .ok () ∧ fits smallest = true ∧ smallestDrawn.1.Room {}) ∧
    (∃ w ring report, generate smallest {} = .ok w ∧
      Ring.ofSettings w.model { maxWords := 3 } = .ok ring ∧
      ((ring.after w.model []).score w.model (w.corpus.map .ok)).1 = .ok report ∧
      report.scores.size = 2) ∧
    generate { smallest with training := 2 ^ 60 } {} = .error .outOfRange := by
  have hfits : fits smallest = true := by decide
  have hsettings : ({} : TableSettings).validate = .ok () := rfl
  obtain ⟨-, hseed, -⟩ := generate_closed validate_smallest hsettings
  have hmade := (hseed hfits).2 room_smallest
  obtain ⟨w, hw⟩ := hmade.made_iff.2 fun _ hlow _ => keyed_smallest hlow
  obtain ⟨report, hscore, hsize, -⟩ :=
    hmade.scored w hw (by decide) { maxWords := 3 } _ [] rfl (by decide)
  obtain ⟨-, -, hunheld⟩ := generate_closed
    (show ({ smallest with training := 2 ^ 60 } : SyntheticSpec).validate = .ok () from rfl)
    hsettings
  exact ⟨⟨validate_smallest, hfits, room_smallest⟩, ⟨w, _, report, hw, rfl, hscore, hsize⟩,
    hunheld (by decide)⟩

end Synthetic

end Ngram
