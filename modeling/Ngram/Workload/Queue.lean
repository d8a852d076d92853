/-!
# Queues

First in, first out, with both ends in constant time on average: what comes in is collected in
reverse and turned around when the front has run out. `toList` is the queue in order.
-/

namespace Ngram

/-- A queue with its length. -/
structure Queue (α : Type) where
  front : List α := []
  back : List α := []
  length : Nat := 0

namespace Queue

variable {α : Type}

/-- The elements, next one first. -/
def toList (q : Queue α) : List α := q.front ++ q.back.reverse

/-- A new last element. -/
def push (q : Queue α) (a : α) : Queue α :=
  { q with back := a :: q.back, length := q.length + 1 }

/-- The first element, and the queue without it. -/
def pop? (q : Queue α) : Option (α × Queue α) :=
  match q.front with
  | a :: front => some (a, { q with front, length := q.length - 1 })
  | [] => match q.back.reverse with
    | a :: front => some (a, { front, back := [], length := q.length - 1 })
    | [] => none

@[simp] theorem toList_push (q : Queue α) (a : α) : (q.push a).toList = q.toList ++ [a] := by
  simp [toList, push]

theorem toList_of_pop? {q q' : Queue α} {a : α} (h : q.pop? = some (a, q')) :
    q.toList = a :: q'.toList := by
  unfold pop? at h
  split at h
  next hf => cases h; simp [toList, hf]
  next hf =>
    split at h
    next hb => cases h; simp [toList, hf, hb]
    next => cases h

theorem toList_of_pop?_eq_none {q : Queue α} (h : q.pop? = none) : q.toList = [] := by
  unfold pop? at h
  split at h
  next => cases h
  next hf =>
    split at h
    next => cases h
    next hb => simp [toList, hf, hb]

end Queue

end Ngram
