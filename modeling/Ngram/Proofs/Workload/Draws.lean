import Ngram.Workload.Draws

/-!
# What is drawn

Nothing is known of the values that are drawn but their ranges. What holds of each single draw, from
any state of the source, holds of all the values that are drawn one after another.

> `size_times`, `forall_mem_times`: how many values there are, and what holds of them.
-/

namespace Ngram

namespace Draws

variable {σ α : Type} {draw : σ → α × σ} {p : α → Prop}

theorem size_repeatInto (n : Nat) (done : Array α) (s : σ) :
    (repeatInto draw n done s).1.size = done.size + n := by
  induction n generalizing done s with
  | zero => rfl
  | succ n ih =>
    rw [repeatInto]
    dsimp only
    rw [ih, Array.size_push, Nat.add_assoc, Nat.add_comm 1]

theorem forall_mem_repeatInto (h : ∀ s, p (draw s).1) {n : Nat} {done : Array α} {s : σ}
    (hdone : ∀ a ∈ done, p a) : ∀ a ∈ (repeatInto draw n done s).1, p a := by
  induction n generalizing done s with
  | zero => exact hdone
  | succ n ih =>
    rw [repeatInto]
    refine ih ?_
    intro a ha
    rcases Array.mem_push.1 ha with ha | rfl
    · exact hdone a ha
    · exact h s

theorem size_times (n : Nat) (s : σ) : (times n draw s).1.size = n := by
  rw [times, size_repeatInto, Array.size_empty, Nat.zero_add]

theorem forall_mem_times (h : ∀ s, p (draw s).1) {n : Nat} {s : σ} :
    ∀ a ∈ (times n draw s).1, p a :=
  forall_mem_repeatInto h (by simp)

end Draws

end Ngram
