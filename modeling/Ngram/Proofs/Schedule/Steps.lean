import Mathlib.Algebra.Order.BigOperators.Group.List
import Ngram.Proofs.Checks
import Ngram.Proofs.Schedule.Interleaving
import Ngram.Proofs.Score.Safety

/-!
# How many steps a run takes

A word takes a step for each n-gram that its walk finds above the single word, and one step more to
come to its end. The highest order is looked up in this last step. So the score of a word tells how
many steps it took: as many as its match is long, but no more than there are orders below the
highest one. A run takes the steps of all its words, however they were interleaved.

> `Climb.steps_score`: the score of a climb tells how many steps it takes.
> `doneIn_of_start`: a walk is done at exactly that step.
> `stepsFrom_eq`: so are words one after another.
> `steps_exact`: and so does a run, in any number of slots.
-/

namespace Ngram

/-- The number of steps that a word takes, as its score tells. -/
def Score.steps (order : Nat) (score : Score) : Nat := min score.matched (max 1 (order - 1))

theorem Score.length_le_sum_steps {order : Nat} {scores : List Score}
    (h : ∀ score ∈ scores, 1 ≤ score.steps order) :
    scores.length ≤ (scores.map (Score.steps order)).sum := by
  have hsum := List.card_nsmul_le_sum (scores.map (Score.steps order)) 1 (List.forall_mem_map.2 h)
  rwa [List.length_map, smul_eq_mul, Nat.mul_one] at hsum

theorem Score.sum_steps_le (order : Nat) (scores : List Score) :
    (scores.map (Score.steps order)).sum ≤ scores.length * max 1 (order - 1) := by
  have hsum := List.sum_le_card_nsmul (scores.map (Score.steps order)) (max 1 (order - 1))
    (List.forall_mem_map.2 fun _ _ => Nat.min_le_right _ _)
  rwa [List.length_map, smul_eq_mul] at hsum

/-- A climb takes a step for the single word, and one for each hit above it. -/
theorem Climb.steps_score (s : Store) (context : List Word) (word : Word) :
    ((s.climb context word).score s.order context.length).steps s.order =
      (s.climb context word).above.length + 1 := by
  have habove := (length_above_climb s context word).2
  have hmiddle := s.middle_size
  unfold Score.steps score
  split
  next p hlongest =>
    -- at the highest order the match is one word longer than there are steps
    have hlast := (length_of_longest hlongest).1
    dsimp only
    omega
  next =>
    dsimp only [Score.ofHit]
    omega

namespace Walk

/-- **A word takes as many steps as its score tells**, whatever the walk did before. Without any
context the walk has ended from its start on, and is only found to be done in its one step. -/
theorem doneIn_of_start {s : Store} {word : Word} (w : Walk) (context : List Word)
    (hword : word.toNat < s.unigrams.size) :
    ∃ step started ended fresh, w.start s context word = .ok (step, started) ∧
      DoneIn s started (fresh.score.steps s.order) ended ∧
      Walk.idle.scoreWord s context word = .ok fresh ∧ ended.score = fresh.score := by
  obtain ⟨step, started, hstart, hlevel, honway, -⟩ := start_eq w context hword
  obtain ⟨ended, hdone, hended⟩ := honway.doneIn (List.length_take_le _ _)
  obtain ⟨fresh, hfresh, hend⟩ := scoreWord_eq .idle context hword
  refine ⟨step, started, ended, fresh, hstart, ?_, hfresh, hended.score.trans hend.score.symm⟩
  rw [hend.score, Climb.steps_score]
  rwa [hlevel, Nat.sub_zero] at hdone

end Walk

namespace Model

variable {m : Model}

/-- The scores of words, one after another from a state on. -/
def scoresFrom (m : Model) (state : State) : List Word → Except Error (List Score)
  | [] => .ok []
  | word :: words => do
    let (score, next) ← m.fullScore state word
    let scores ← m.scoresFrom next words
    .ok (score :: scores)

/-- The same scores, without the machine. -/
def scoredFrom (m : Model) (state : State) : List Word → List Score
  | [] => []
  | word :: words => m.scored state word :: m.scoredFrom (m.next state word) words

theorem scoresFrom_eq {state : State} (hfits : state.length ≤ contextSize) {words : List Word}
    (hwords : ∀ word ∈ words, word < m.vocabulary.bound) :
    m.scoresFrom state words = .ok (m.scoredFrom state words) := by
  induction words generalizing state with
  | nil => rfl
  | cons word words ih =>
    have hrest := ih (m.fits_next state word) fun w hw => hwords w (List.mem_cons_of_mem _ hw)
    rw [scoresFrom, fullScore_eq hfits (hwords word List.mem_cons_self)]
    simp only [bind, Except.bind, hrest]
    rfl

theorem steps_scored (m : Model) (state : State) (word : Word) :
    (m.scored state word).steps m.store.order = (m.climb state word).above.length + 1 :=
  Climb.steps_score m.store (m.context state) word

theorem length_scoredFrom (m : Model) (state : State) (words : List Word) :
    (m.scoredFrom state words).length = words.length := by
  induction words generalizing state with
  | nil => rfl
  | cons word words ih => rw [scoredFrom, List.length_cons, ih, List.length_cons]

/-- Words one after another take as many steps as their scores tell. -/
theorem stepsFrom_eq (m : Model) (state : State) (words : List Word) :
    m.stepsFrom state words =
      ((m.scoredFrom state words).map (Score.steps m.store.order)).sum := by
  induction words generalizing state with
  | nil => rfl
  | cons word words ih =>
    rw [stepsFrom, scoredFrom, List.map_cons, List.sum_cons, steps_scored, ih]

theorem one_le_steps_of_mem {state : State} {words : List Word} {score : Score}
    (h : score ∈ m.scoredFrom state words) : 1 ≤ score.steps m.store.order := by
  induction words generalizing state with
  | nil => cases h
  | cons word words ih =>
    rcases List.mem_cons.1 h with rfl | h
    · rw [steps_scored]
      exact Nat.succ_pos _
    · exact ih h

/-- The scores of the words of sentences, each sentence from its beginning on. -/
def scoredEach (m : Model) (sentences : List (List Word)) : List (List Score) :=
  sentences.map (m.scoredFrom m.beginState)

theorem mapM_scoresFrom_eq {sentences : List (List Word)}
    (h : ∀ s ∈ sentences, ∀ word ∈ s, word < m.vocabulary.bound) :
    sentences.mapM (m.scoresFrom m.beginState) = .ok (m.scoredEach sentences) := by
  rw [mapM_eq_ok_iff, scoredEach, List.map_map]
  exact List.map_congr_left fun s hs => scoresFrom_eq m.fits_beginState (h s hs)

/-- The report of sentences counts their words. -/
theorem words_report (m : Model) (sentences : List (List Word)) :
    (m.report sentences).words = (m.scoredEach sentences).flatten.length := by
  rw [scoredEach, List.length_flatten, List.map_map]
  exact congrArg List.sum (List.map_congr_left fun s _ => (m.length_scoredFrom _ s).symm)

/-- The report of sentences counts the steps that their scores tell. -/
theorem steps_report (m : Model) (sentences : List (List Word)) :
    (m.report sentences).steps =
      ((m.scoredEach sentences).flatten.map (Score.steps m.store.order)).sum := by
  rw [scoredEach, List.map_flatten, List.sum_flatten, List.map_map, List.map_map]
  exact congrArg List.sum (List.map_congr_left fun s _ => m.stepsFrom_eq _ s)

theorem words_report_le_steps (m : Model) (sentences : List (List Word)) :
    (m.report sentences).words ≤ (m.report sentences).steps := by
  rw [words_report, steps_report]
  apply Score.length_le_sum_steps
  intro score hscore
  obtain ⟨scores, hscores, hmem⟩ := List.mem_flatten.1 hscore
  obtain ⟨s, -, rfl⟩ := List.mem_map.1 hscores
  exact one_le_steps_of_mem hmem

theorem steps_report_le (m : Model) (sentences : List (List Word)) :
    (m.report sentences).steps ≤ (m.report sentences).words * max 1 (m.store.order - 1) := by
  rw [words_report, steps_report]
  exact Score.sum_steps_le _ _

end Model

namespace Ring

/-- **Each word takes a known number of steps.** A walk that is started on any context, whatever it
did before, is done at exactly the step that the match of the word tells: as many as the match is
long, but no more than there are orders below the highest one, and one at least. A run that succeeds
takes as many steps as the words of its sentences, each scored on its own from the beginning of its
sentence, tell together, in any number of slots. So it takes a step for each word at least, and for
each word no more than one for each order below the highest. -/
theorem steps_exact (m : Model) :
    (∀ (w : Walk) (context : List Word) (word : Word), word < m.vocabulary.bound →
      ∃ step started ended fresh, w.start m.store context word = .ok (step, started) ∧
        Walk.DoneIn m.store started (min fresh.score.matched (max 1 (m.store.order - 1))) ended ∧
        Walk.idle.scoreWord m.store context word = .ok fresh ∧ ended.score = fresh.score) ∧
    ∀ (settings : PipelineSettings) (ring : Ring) (earlier : List (List Item)) (items : List Item)
      (report : Report), ofSettings m settings = .ok ring →
      ((ring.after m earlier).score m items).1 = .ok report →
        ∃ (sentences : List (List Word)) (scores : List (List Score)),
          items = sentences.flatten.map .ok ∧
          (∀ s ∈ sentences, EndsOnce m.vocabulary.endSentence s) ∧
          sentences.mapM (m.scoresFrom m.beginState) = .ok scores ∧
          report.words = scores.flatten.length ∧
          report.steps =
            (scores.flatten.map fun score => min score.matched (max 1 (m.store.order - 1))).sum ∧
          report.words ≤ report.steps ∧
          report.steps ≤ report.words * max 1 (m.store.order - 1) := by
  refine ⟨fun w context word hword =>
    Walk.doneIn_of_start w context (Model.toNat_lt_of_lt_bound hword), ?_⟩
  intro settings ring earlier items report hring hrun
  rw [score_after hring] at hrun
  obtain ⟨sentences, -, hitems, hsentences, rfl⟩ := Model.scoreStream_eq_ok_iff.1 hrun
  have hscores := Model.mapM_scoresFrom_eq fun s hs => (hsentences s hs).inside
  exact ⟨sentences, m.scoredEach sentences, hitems, fun s hs => (hsentences s hs).ends, hscores,
    m.words_report sentences, m.steps_report sentences, m.words_report_le_steps sentences,
    m.steps_report_le sentences⟩

/-- A model in which the word `3` can begin a sentence, and `2` is known behind it at all orders. -/
def tripleModel : Model :=
  { Model.misplacedModel with
    store := { Model.misplacedModel.store with
      middle := #[
        { slots := #[⟨0, ⟨.zero, .zero, .zero⟩, 0⟩,
            ⟨Gram.key [1, 3], ⟨⟨0xbf000000⟩, .zero, ⟨0xbf000000⟩⟩, 0⟩,
            ⟨Gram.key [3, 2], ⟨⟨0xbf000000⟩, .negZero, ⟨0xbf000000⟩⟩, 0⟩,
            ⟨0, ⟨.zero, .zero, .zero⟩, 0⟩]
          reducer := .mask 3, slots_pos := by decide, slots_lt := by decide, reducer_eq := rfl
          count := 2, count_eq := by decide, count_lt := by decide }]
      longest :=
        { slots := #[⟨Gram.key [1, 3, 2], ⟨0xbe000000⟩, 0⟩, ⟨0, ⟨0x7fc00001⟩, 5⟩]
          reducer := .divide (.ofDivisor 2), slots_pos := by decide, slots_lt := by decide
          reducer_eq := rfl, count := 1, count_eq := by decide, count_lt := by decide }
      middle_size := rfl } }

/-- The three words of two sentences are matched with two words, with all three, and alone. The
first two take two steps each, and the last one a single step. -/
theorem steps_exact_triple :
    (∃ step started ended, Walk.idle.start tripleModel.store [3, 1] 2 = .ok (step, started) ∧
      Walk.DoneIn tripleModel.store started 2 ended ∧ ended.score.matched = 3) ∧
    ∃ ring report scores, ofSettings tripleModel { depth := 2 } = .ok ring ∧
      ((ring.after tripleModel [[.ok 3]]).score tripleModel [.ok 3, .ok 2, .ok 2]).1 =
        .ok report ∧
      [[3, 2], [2]].mapM (tripleModel.scoresFrom tripleModel.beginState) = .ok scores ∧
      scores.flatten.map Score.matched = [2, 3, 1] ∧ report.words = 3 ∧ report.steps = 5 := by
  refine ⟨?_, ?_⟩
  · have hbound : (2 : Word) < tripleModel.vocabulary.bound := by decide
    let state : State := { State.empty with words := #v[3, 1, 0, 0, 0], length := 2 }
    obtain ⟨step, started, ended, fresh, hstart, hdone, hfresh, hscore⟩ :=
      (steps_exact tripleModel).1 .idle [3, 1] 2 hbound
    obtain ⟨walk, hwalk, hfound, -⟩ := tripleModel.scoreWord_eq state hbound
    have hrecent : state.recent = [3, 1] := rfl
    rw [hrecent, hfresh] at hwalk
    obtain rfl := Except.ok.inj hwalk
    have hmatched : fresh.score.matched = 3 := by
      rw [hfound]
      decide +kernel
    rw [hmatched] at hdone
    exact ⟨step, started, ended, hstart, hdone, by rw [hscore, hmatched]⟩
  · have hring : ofSettings tripleModel { depth := 2 } = .ok _ := rfl
    have hends : ∀ s ∈ [[3, 2], [2]], EndsOnce tripleModel.vocabulary.endSentence s := by
      simp only [List.forall_mem_cons]
      exact ⟨⟨[3], rfl, by decide⟩, ⟨[], rfl, by decide⟩, by simp⟩
    have hinside : ∀ s ∈ [[3, 2], [2]], ∀ word ∈ s, word < tripleModel.vocabulary.bound := by
      show ∀ s ∈ [[3, 2], [2]], ∀ word ∈ s, word < (4 : Word)
      simp
    have hsentences : ∀ s ∈ [[3, 2], [2]], IsSentence tripleModel.vocabulary 4096 s :=
      fun s hs => ⟨hends s hs, hinside s hs, by revert s; decide⟩
    have hrun := score_after hring [[.ok 3]] ([[3, 2], [2]].flatten.map .ok)
    rw [Model.scoreStream_eq_ok_iff.2 ⟨_, by simp, rfl, hsentences, rfl⟩] at hrun
    obtain ⟨sentences, scores, hitems, hends', hscores, hwords, hsteps, -⟩ :=
      (steps_exact tripleModel).2 _ _ _ _ _ hring hrun
    have hflatten : sentences.flatten = [[3, 2], [2]].flatten :=
      List.map_injective_iff.2 (fun _ _ h => Except.ok.inj h) hitems.symm
    obtain rfl := Vocabulary.sentences_unique hsentences hends' hflatten
    have hmatched : scores.flatten.map Score.matched = [2, 3, 1] := by
      rw [Model.mapM_scoresFrom_eq hinside] at hscores
      obtain rfl := Except.ok.inj hscores
      decide +kernel
    refine ⟨_, _, scores, hring, hrun, hscores, hmatched, ?_, ?_⟩
    · rw [hwords, ← List.length_map Score.matched, hmatched]
      rfl
    · have hmap : scores.flatten.map (fun score => min score.matched (max 1 2)) =
          (scores.flatten.map Score.matched).map fun k => min k (max 1 2) := by
        rw [List.map_map]
        rfl
      rw [hmatched] at hmap
      exact hsteps.trans (congrArg List.sum hmap)

end Ring

end Ngram
