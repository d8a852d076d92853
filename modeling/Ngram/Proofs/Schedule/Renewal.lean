import Ngram.Proofs.Schedule.Interleaving
import Ngram.Proofs.Score.Meaning

/-!
# A ring keeps nothing between runs

A run that fails leaves its slots as they are: some hold half of a sentence, some a walk whose next
bucket has been located and not scanned. The next run need not touch all of them, because it feeds
no more slots than it has sentences. Still nothing of this can be seen. Of what its slots hold, a
ring reads the number of the slots and their capacity before it has written it, and these no run
changes.

> `score_renewed`: a used ring does what a new one does, for any earlier runs and, more than that,
> for any contents of the slots.
> `scoreEach_eq_map`: runs in a row come to what each of them comes to on a new ring.
-/

namespace Ngram

namespace Ring

variable {m : Model} {settings : PipelineSettings} {fresh : Ring}

/-- A ring of the shape that the settings ask for scores a stream as a new ring would, whatever its
slots hold. -/
theorem score_eq_fresh {used : Ring} (hfresh : ofSettings m settings = .ok fresh)
    (hshaped : Run.Shaped settings.maxWords settings.depth used.slots) (items : List Item) :
    (used.score m items).1 = (fresh.score m items).1 := by
  obtain ⟨hnew, hdepth⟩ := shaped_ofSettings hfresh
  have hused := score_eq_stream (m := m) hshaped.capacity_eq (hshaped.size_eq ▸ hdepth) items
  have hscore := score_eq_stream (m := m) hnew.capacity_eq (hnew.size_eq ▸ hdepth) items
  rw [hused, hscore]

/-- **A ring keeps nothing between runs.** After any earlier runs, each of which may have failed at
any item, a run ends as on a new ring: with the same error, or with the same report, its scores bit
for bit. Earlier runs are not needed for this: the slots may hold anything at all. -/
theorem score_renewed (hfresh : ofSettings m settings = .ok fresh) :
    (∀ (earlier : List (List Item)) (items : List Item),
      ((fresh.after m earlier).score m items).1 = (fresh.score m items).1) ∧
    ∀ used : Ring, Run.Shaped settings.maxWords settings.depth used.slots →
      ∀ items : List Item, (used.score m items).1 = (fresh.score m items).1 := by
  refine ⟨?_, fun used hshaped items => score_eq_fresh hfresh hshaped items⟩
  intro earlier items
  -- no run, failed or not, changes the shape of the ring
  have hshaped := shaped_after (m := m) (shaped_ofSettings hfresh).1 earlier
  exact score_eq_fresh hfresh hshaped items

open Model in
/-- A run fails in the second slot, at a word outside the vocabulary, and leaves the first one with
a sentence of two words and a walk under way. The next run has one sentence of one word. -/
theorem score_renewed_interrupted :
    ∃ fresh, ofSettings misplacedModel { depth := 2 } = .ok fresh ∧
      let used := fresh.after misplacedModel [[.ok 3, .ok 2, .ok 9]]
      (∃ s ∈ used.slots, s.live = true ∧ s.walk.finished = false ∧ s.words.size = 2) ∧
        (used.score misplacedModel [.ok 2]).1 = (fresh.score misplacedModel [.ok 2]).1 := by
  let idle : Ring := ⟨Array.replicate 2 (.idle misplacedModel 4096)⟩
  have hfresh : ofSettings misplacedModel { depth := 2 } = .ok idle := rfl
  refine ⟨idle, hfresh, ?_, (score_renewed hfresh).1 [[.ok 3, .ok 2, .ok 9]] [.ok 2]⟩
  have hbusy : (idle.after misplacedModel [[.ok 3, .ok 2, .ok 9]]).slots.any
      (fun s => s.live && !s.walk.finished && s.words.size == 2) = true := by decide +kernel
  obtain ⟨i, hi, hs⟩ := Array.any_eq_true.1 hbusy
  simp only [Bool.and_eq_true, Bool.not_eq_true', beq_iff_eq] at hs
  exact ⟨_, Array.getElem_mem hi, hs.1.1, hs.1.2, hs.2⟩

/-- What runs over several streams come to, one after another on the same ring. -/
def scoreEach (m : Model) (ring : Ring) : List (List Item) → List (Except Error Report)
  | [] => []
  | items :: more => (ring.score m items).1 :: (ring.score m items).2.scoreEach m more

/-- **Runs in a row do not see each other.** The induction is on the runs, over any ring of the
shape, as the ring of the second run is a used one. -/
theorem scoreEach_eq_map {used : Ring} (hfresh : ofSettings m settings = .ok fresh)
    (hshaped : Run.Shaped settings.maxWords settings.depth used.slots)
    (streams : List (List Item)) :
    used.scoreEach m streams = streams.map fun items => (fresh.score m items).1 := by
  induction streams generalizing used with
  | nil => rfl
  | cons items more ih =>
    rw [scoreEach, List.map_cons, score_eq_fresh hfresh hshaped items]
    exact congrArg _ (ih (shaped_score hshaped items))

end Ring

end Ngram
