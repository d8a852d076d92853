import Ngram.Schedule.Ring

/-!
# What a ring keeps between runs

A ring can be used again, also after a run that failed at any point. Its slots may then hold half of
a sentence or a walk under way; what they keep is their number and how many words each can hold.

> `shaped_score`: no run changes the number or the capacity of the slots.
-/

namespace Ngram

namespace Slot

variable {m : Model} {s s' : Slot}

theorem capacity_feed (m : Model) (s : Slot) (items : List Item) :
    (s.feed m items).2.1.capacity = s.capacity := rfl

theorem capacity_start {index : Nat} (h : s.start m index = .ok s') : s'.capacity = s.capacity := by
  obtain ⟨walk, rfl⟩ := start_frame h
  rfl

theorem capacity_step {p : Progress} (h : s.step m = .ok (p, s')) : s'.capacity = s.capacity := by
  obtain ⟨walk, score, state, rfl⟩ := step_frame h
  rfl

theorem capacity_drain {words steps words' steps' : Nat}
    (h : s.drain m words steps = .ok (s', words', steps')) : s'.capacity = s.capacity := by
  fun_induction drain m s words steps with
  | case1 => cases h
  | case2 s words steps s₁ hstep ih => exact (ih h).trans (capacity_step hstep)
  | case3 s words steps s₁ hstep ih => exact (ih h).trans (capacity_step hstep)
  | case4 s words steps s₁ hstep => cases h; exact capacity_step hstep

end Slot

namespace Run

variable {m : Model} {capacity size i : Nat} {slots : Array Slot} {run : Run} {s s' : Slot}

/-- The number of the slots, and their capacity. -/
structure Shaped (capacity size : Nat) (slots : Array Slot) : Prop where
  size_eq : slots.size = size
  capacity_eq : ∀ s ∈ slots, s.capacity = capacity

theorem forall_mem_put {p : Slot → Prop} (h : ∀ s ∈ slots, p s) (hs' : p s') :
    ∀ s ∈ put slots i s', p s := by
  intro s hs
  obtain ⟨j, hj, rfl⟩ := Array.mem_iff_getElem.1 hs
  have hlt : j < slots.size := by simpa [put] using hj
  simp only [put, Array.getElem_setIfInBounds hlt]
  split
  next => exact hs'
  next => exact h _ (Array.getElem_mem hlt)

theorem Shaped.put (h : Shaped capacity size slots) (hs' : s'.capacity = capacity) :
    Shaped capacity size (put slots i s') :=
  ⟨by rw [Run.put, Array.size_setIfInBounds, h.size_eq], forall_mem_put h.capacity_eq hs'⟩

theorem Shaped.capacity_at (h : Shaped capacity size slots) (hs : slots[i]? = some s) :
    s.capacity = capacity :=
  h.capacity_eq s (Array.mem_of_getElem? hs)

theorem capacity_enter {r r' : Report} (h : enter m r s = .ok (r', s')) :
    s'.capacity = s.capacity := by
  unfold enter at h
  split at h
  next hstart => cases h; exact Slot.capacity_start hstart
  next => cases h

/-- A phase leaves slots of a certain shape, whether it fails or not. -/
def Phase.Leaves (capacity size : Nat) : Phase → Prop
  | .ok run => Shaped capacity size run.slots
  | .error (_, slots) => Shaped capacity size slots

theorem shaped_fill {left : Nat} (h : Shaped capacity size run.slots) :
    Phase.Leaves capacity size ((fill m run i left).map Prod.fst) := by
  induction left generalizing run i with
  | zero => exact h
  | succ left ih =>
    rw [fill]
    split
    next => exact h
    next s hs =>
      have hfeed := Slot.capacity_feed m s run.items
      split
      next hf =>
        rw [hf] at hfeed
        exact h.put (hfeed.trans (h.capacity_at hs))
      next hf =>
        rw [hf] at hfeed
        exact h.put (hfeed.trans (h.capacity_at hs))
      next hf =>
        rw [hf] at hfeed
        split
        next => exact h.put (hfeed.trans (h.capacity_at hs))
        next henter =>
          exact ih (h.put ((capacity_enter henter).trans (hfeed.trans (h.capacity_at hs))))

/-- A turn leaves slots of a certain shape. -/
def Turn.Leaves (capacity size : Nat) : Turn → Prop
  | .again run => Shaped capacity size run.slots
  | .ended run => Shaped capacity size run.slots
  | .failed _ slots => Shaped capacity size slots

theorem shaped_reload (h : Shaped capacity size run.slots) (hs : s.capacity = capacity) :
    (reload m run i s).Leaves capacity size := by
  unfold reload
  split
  next => exact h.put hs
  next =>
    have hfeed : (s.retire.feed m run.items).2.1.capacity = capacity := hs
    split
    next hf =>
      rw [hf] at hfeed
      exact h.put hfeed
    next hf =>
      rw [hf] at hfeed
      exact h.put hfeed
    next hf =>
      rw [hf] at hfeed
      split
      next => exact h.put hfeed
      next henter => exact h.put ((capacity_enter henter).trans hfeed)

theorem shaped_turn (h : Shaped capacity size run.slots) :
    (turn m run i).Leaves capacity size := by
  unfold turn
  split
  next => exact h
  next s hs =>
    split
    next => exact h
    next hstep => exact shaped_reload h ((Slot.capacity_step hstep).trans (h.capacity_at hs))
    next hstep => exact h.put ((Slot.capacity_step hstep).trans (h.capacity_at hs))

theorem shaped_serve {width : Nat} (h : Shaped capacity size run.slots) :
    (serve m width run i).Leaves capacity size := by
  have hturn := shaped_turn (m := m) (i := i) h
  fun_induction serve m width run i with
  | case1 run i run' heq ih =>
    rw [heq] at hturn
    exact ih hturn (shaped_turn hturn)
  | case2 run i run' heq =>
    rw [heq] at hturn
    exact hturn
  | case3 run i e slots heq =>
    rw [heq] at hturn
    exact hturn

theorem shaped_drain {left : Nat} (h : Shaped capacity size run.slots) :
    (drain m run i left).Leaves capacity size := by
  induction left generalizing run i with
  | zero => exact h
  | succ left ih =>
    rw [drain]
    split
    next => exact h
    next s hs =>
      split
      next =>
        split
        next => exact h
        next hdrain =>
          have hcapacity := (Slot.capacity_drain hdrain).trans (h.capacity_at hs)
          split
          next => exact h.put hcapacity
          next => exact ih (h.put hcapacity)
      next => exact ih h

theorem shaped_complete (h : Shaped capacity size run.slots) :
    (complete m run).Leaves capacity size := by
  have hfill : Phase.Leaves capacity size ((fill m run 0 run.slots.size).map Prod.fst) :=
    shaped_fill h
  unfold complete
  simp only [bind, Except.bind]
  split
  next hf =>
    rw [hf] at hfill
    exact hfill
  next result hf =>
    obtain ⟨run', width, ended⟩ := result
    rw [hf] at hfill
    split
    next => exact hfill
    next =>
      split
      next => exact shaped_drain hfill
      next =>
        have hserve : (serve m width run' 0).Leaves capacity size := shaped_serve hfill
        split
        next hs =>
          rw [hs] at hserve
          exact hserve
        next hs =>
          rw [hs] at hserve
          exact shaped_drain hserve

end Run

namespace Ring

/-- No run changes the number or the capacity of the slots. -/
theorem shaped_score {m : Model} {ring : Ring} {capacity size : Nat}
    (h : Run.Shaped capacity size ring.slots) (items : List Item) :
    Run.Shaped capacity size (ring.score m items).2.slots := by
  have hcomplete : (Run.complete m ⟨ring.slots, items, {}⟩).Leaves capacity size :=
    Run.shaped_complete h
  unfold score
  split
  next hrun =>
    rw [hrun] at hcomplete
    exact hcomplete
  next hrun =>
    rw [hrun] at hcomplete
    exact hcomplete

/-- A ring after runs over some streams, each of which may have failed. -/
def after (m : Model) (ring : Ring) (earlier : List (List Item)) : Ring :=
  earlier.foldl (fun r items => (r.score m items).2) ring

theorem shaped_after {m : Model} {ring : Ring} {capacity size : Nat}
    (h : Run.Shaped capacity size ring.slots) (earlier : List (List Item)) :
    Run.Shaped capacity size (ring.after m earlier).slots := by
  induction earlier generalizing ring with
  | nil => exact h
  | cons items earlier ih => exact ih (shaped_score h items)

/-- A ring for given settings has as many slots as they say, and at least one. -/
theorem shaped_ofSettings {m : Model} {settings : PipelineSettings} {ring : Ring}
    (h : ofSettings m settings = .ok ring) :
    Run.Shaped settings.maxWords settings.depth ring.slots ∧ 0 < settings.depth := by
  unfold ofSettings at h
  simp only [bind, Except.bind] at h
  split at h
  next => cases h
  next hvalid =>
    cases h
    refine ⟨⟨Array.size_replicate, ?_⟩, ?_⟩
    · intro s hs
      obtain ⟨-, rfl⟩ := Array.mem_replicate.1 hs
      rfl
    · exact (PipelineSettings.validate_eq_ok_iff.1 hvalid).1.1

end Ring

end Ngram
