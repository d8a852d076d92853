/-!
# Chains of computations that may fail

A chain has a result exactly if each of its steps has one; otherwise the first error is its outcome.
-/

namespace Ngram

variable {α β ε : Type}

/-- A computation with a result has one at each step. -/
theorem exists_of_bind_eq_ok {x : Except ε α} {f : α → Except ε β} {y : β}
    (h : (x >>= f) = .ok y) : ∃ a, x = .ok a ∧ f a = .ok y := by
  cases x with
  | error e => cases h
  | ok a => exact ⟨a, rfl, h⟩

/-- An error of a chain is that of a step whose predecessors have results. -/
theorem bind_eq_error_iff {x : Except ε α} {f : α → Except ε β} {e : ε} :
    (x >>= f) = .error e ↔ x = .error e ∨ ∃ a, x = .ok a ∧ f a = .error e := by
  cases x <;> simp [bind, Except.bind]

theorem map_eq_ok_iff {f : α → β} {x : Except ε α} {y : β} :
    x.map f = .ok y ↔ ∃ a, x = .ok a ∧ f a = y := by
  cases x <;> simp [Except.map]

theorem map_eq_error_iff {f : α → β} {x : Except ε α} {e : ε} :
    x.map f = .error e ↔ x = .error e := by
  cases x <;> simp [Except.map]

/-- Two checks pass if both do. -/
theorem bind_eq_ok_iff {x y : Except ε Unit} :
    (do x; y) = .ok () ↔ x = .ok () ∧ y = .ok () := by
  cases x with
  | error e => simp [bind, Except.bind]
  | ok u => simp [bind, Except.bind]

/-- A list of checks passes if each of them does. -/
theorem forM_eq_ok_iff {f : α → Except ε Unit} {l : List α} :
    l.forM f = .ok () ↔ ∀ x ∈ l, f x = .ok () := by
  induction l with
  | nil => simp [List.forM, pure, Except.pure]
  | cons x l ih =>
    rw [List.forM, List.forall_mem_cons, ← ih]
    exact bind_eq_ok_iff

/-- An error of a list of checks is one of theirs. -/
theorem exists_of_forM_eq_error {f : α → Except ε Unit} {l : List α} {e : ε}
    (h : l.forM f = .error e) : ∃ x ∈ l, f x = .error e := by
  induction l with
  | nil => cases h
  | cons x l ih =>
    rw [List.forM] at h
    rcases bind_eq_error_iff.1 h with hx | ⟨_, -, hrest⟩
    · exact ⟨x, List.mem_cons_self, hx⟩
    · obtain ⟨x', hmem, hx'⟩ := ih hrest
      exact ⟨x', List.mem_cons_of_mem _ hmem, hx'⟩

/-- A list of computations has the results of all of them. -/
theorem mapM_eq_ok_iff {f : α → Except ε β} {l : List α} {ys : List β} :
    l.mapM f = .ok ys ↔ l.map f = ys.map .ok := by
  induction l generalizing ys with
  | nil => cases ys <;> simp [pure, Except.pure]
  | cons x l ih =>
    rw [List.mapM_cons, List.map_cons]
    constructor
    · intro h
      obtain ⟨y, hy, h⟩ := exists_of_bind_eq_ok h
      obtain ⟨ys', hys, h⟩ := exists_of_bind_eq_ok h
      cases h
      rw [List.map_cons, hy, ih.1 hys]
    · intro h
      cases ys with
      | nil => cases h
      | cons y ys =>
        obtain ⟨hy, hys⟩ := List.cons.inj h
        rw [hy, ih.2 hys]
        rfl

/-- A list of results is there if each of them is. -/
theorem mapM_eq_ok {f : α → Except ε β} {l : List α} (h : ∀ x ∈ l, ∃ y, f x = .ok y) :
    ∃ ys, l.mapM f = .ok ys := by
  induction l with
  | nil => exact ⟨[], rfl⟩
  | cons x l ih =>
    rw [List.forall_mem_cons] at h
    obtain ⟨⟨y, hy⟩, hrest⟩ := h
    obtain ⟨ys, hys⟩ := ih hrest
    exact ⟨y :: ys, by rw [List.mapM_cons, hy, hys]; rfl⟩

theorem getElem?_of_mapM {f : α → Except ε β} {l : List α} {ys : List β}
    (h : l.mapM f = .ok ys) :
    ys.length = l.length ∧ ∀ (i : Nat) x, l[i]? = some x → ∃ y, ys[i]? = some y ∧ f x = .ok y := by
  have hmap := mapM_eq_ok_iff.1 h
  refine ⟨by simpa using (congrArg List.length hmap).symm, ?_⟩
  intro i x hx
  have hget := congrArg (·[i]?) hmap
  simp only [List.getElem?_map, hx, Option.map_some] at hget
  obtain ⟨y, hy, hf⟩ := Option.map_eq_some_iff.1 hget.symm
  exact ⟨y, hy, hf.symm⟩

/-- A list of computations fails with the first error among them. -/
theorem mapM_eq_error_iff {f : α → Except ε β} {l : List α} {e : ε} :
    l.mapM f = .error e ↔ ∃ front x behind, l = front ++ x :: behind ∧
      (∀ y ∈ front, ∃ z, f y = .ok z) ∧ f x = .error e := by
  constructor
  · intro h
    induction l with
    | nil => cases h
    | cons x l ih =>
      rw [List.mapM_cons] at h
      rcases bind_eq_error_iff.1 h with hx | ⟨y, hy, hrest⟩
      · exact ⟨[], x, l, rfl, by simp, hx⟩
      · rcases bind_eq_error_iff.1 hrest with hl | ⟨ys, -, hpure⟩
        · obtain ⟨front, x', behind, rfl, hfront, hx'⟩ := ih hl
          exact ⟨x :: front, x', behind, rfl, List.forall_mem_cons.2 ⟨⟨y, hy⟩, hfront⟩, hx'⟩
        · cases hpure
  · intro h
    obtain ⟨front, x, behind, rfl, hfront, hx⟩ := h
    obtain ⟨ys, hys⟩ := mapM_eq_ok hfront
    rw [List.mapM_append, hys, List.mapM_cons, hx]
    rfl

/-- An error of a list of computations is one of theirs. -/
theorem exists_of_mapM_eq_error {f : α → Except ε β} {l : List α} {e : ε}
    (h : l.mapM f = .error e) : ∃ x ∈ l, f x = .error e := by
  obtain ⟨front, x, behind, rfl, -, hx⟩ := mapM_eq_error_iff.1 h
  exact ⟨x, by simp, hx⟩

end Ngram
