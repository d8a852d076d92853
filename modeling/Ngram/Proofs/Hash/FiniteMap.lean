import Ngram.Model.Weights
import Ngram.Proofs.Hash.Insertion

/-!
# A probe table is a finite map

A table that is filled by inserting keeps every entry where a search for its key ends:

> `InPlace`: the scan for the key of a bucket, from the home of the key on, ends in that bucket.

This is the whole invariant of linear probing. It says that no bucket between the home of a key and
its entry is empty, around the end of the array or not, and that no key stands in two buckets. An
entry goes to the first empty bucket from its home on (`place_inPlace`), and since no search for
another key passes an empty bucket, no other search ends elsewhere. With `InPlace` a table answers
from its list of entries alone (`Holds.find_eq`), and an entry is refused for one of three reasons
(`Holds.insert_eq`). By induction along a sequence of insertions:

> `insertEach_finite_map`: after any insertions, accepted or refused, the table is the finite map of
> the entries that were accepted.
-/

namespace Ngram

/-- Setting an element that a filter leaves out to one that it keeps adds that one. -/
theorem filter_set_perm {α : Type} {p : α → Bool} {l : List α} {i : Nat} {e : α} (hi : i < l.length)
    (hempty : p l[i] = false) (hpresent : p e = true) :
    ((l.set i e).filter p).Perm (e :: l.filter p) := by
  induction l generalizing i with
  | nil => cases hi
  | cons a l ih =>
    cases i with
    | zero =>
      have ha : p a = false := hempty
      simp [ha, hpresent]
    | succ i =>
      have hrest := ih (Nat.lt_of_succ_lt_succ hi) hempty
      rw [List.set_cons_succ]
      by_cases ha : p a = true
      · rw [List.filter_cons_of_pos ha, List.filter_cons_of_pos ha]
        exact (hrest.cons a).trans (.swap e a _)
      · rw [List.filter_cons_of_neg ha, List.filter_cons_of_neg ha]
        exact hrest

variable {α : Type} [Entry α]

namespace Buckets

/-- Every entry is where a search for its key ends. -/
def InPlace (b : Buckets α) : Prop :=
  ∀ i, b.keyAt i ≠ 0 → b.scan (b.keyAt i) (b.locate (b.keyAt i)) b.slots.size = some i

theorem mem_entries {b : Buckets α} {e : α} :
    e ∈ b.entries ↔ Entry.key e ≠ 0 ∧ ∃ i : Nat, b.slots[i]? = some e := by
  rw [entries, List.mem_filter, bne_iff_ne, List.mem_iff_getElem?]
  simp only [Array.getElem?_toList]
  exact And.comm

/-- Entries in place are found by their keys, and nothing else is. -/
theorem find_eq_some_iff {b : Buckets α} (h : b.InPlace) {key : UInt64} {e : α} :
    b.find key = some e ↔ e ∈ b.entries ∧ Entry.key e = key := by
  rw [find, complete_eq_some_iff, mem_entries]
  constructor
  · intro h
    obtain ⟨hk, rfl, i, -, he⟩ := h
    exact ⟨⟨hk, i, he⟩, rfl⟩
  · intro h
    obtain ⟨⟨hk, i, he⟩, rfl⟩ := h
    have hkey := keyAt_of_getElem? he
    exact ⟨hk, rfl, i, hkey ▸ h i (hkey ▸ hk), he⟩

/-- No two entries in place share a key. -/
theorem nodup_entries {b : Buckets α} (h : b.InPlace) : (b.entries.map Entry.key).Nodup := by
  have hslots : b.slots.toList.Pairwise
      fun e e' => Entry.key e ≠ 0 → Entry.key e ≠ Entry.key e' := by
    rw [List.pairwise_iff_getElem]
    intro i j hi hj hij hk heq
    have hi' : b.keyAt i = Entry.key b.slots.toList[i] := keyAt_of_lt (by simpa using hi)
    have hj' : b.keyAt j = Entry.key b.slots.toList[j] := keyAt_of_lt (by simpa using hj)
    -- both buckets are where the search for one key ends
    have hsi := h i (hi' ▸ hk)
    have hsj := h j (hj' ▸ heq ▸ hk)
    rw [hj', ← heq, ← hi', hsi] at hsj
    cases hsj
    exact Nat.lt_irrefl _ hij
  rw [List.Nodup, List.pairwise_map, entries, List.pairwise_filter]
  refine hslots.imp fun hne hk _ => hne (by simpa using hk)

end Buckets

namespace Table

open Buckets

section Place

variable {t : Table α} {e : α} {i : Nat} {hi : i < t.slots.size}
  {empty : isPresent t.slots[i] = false} {present : isPresent e = true}
  {room : t.count + 1 < t.slots.size}

theorem entries_place : (t.place e i hi empty present room).entries.Perm (e :: t.entries) := by
  rw [entries, slots_place, Array.toList_set]
  exact filter_set_perm (by simpa using hi) (by simpa [isPresent] using empty)
    (by simpa [isPresent] using present)

/-- Putting an entry where the search for its key ended keeps every entry in place. -/
theorem place_inPlace (h : t.InPlace)
    (hscan : t.scan (Entry.key e) (t.locate (Entry.key e)) t.slots.size = some i) :
    (t.place e i hi empty present room).InPlace := by
  intro j hj
  rw [size_place, locate_place]
  refine scan_place (t.locate_lt _) ?_ (Or.inl rfl)
  -- the old search for a key that is now in bucket `j`
  rw [keyAt_place] at hj ⊢
  split
  next hji =>
    subst hji
    exact hscan
  next hji =>
    rw [if_neg hji] at hj
    exact h j hj

end Place

theorem count_eq_length (t : Table α) : t.count = t.entries.length := by
  rw [t.count_eq, ← Array.countP_toList, List.countP_eq_length_filter]
  rfl

/-- The table holds exactly the given entries, each of them in place. -/
structure Holds (t : Table α) (es : List α) : Prop where
  inPlace : t.InPlace
  perm : t.entries.Perm es

namespace Holds

variable {t : Table α} {es : List α}

theorem mem_iff (h : t.Holds es) {e : α} : e ∈ t.entries ↔ e ∈ es := h.perm.mem_iff

theorem key_ne_zero (h : t.Holds es) {e : α} (he : e ∈ es) : Entry.key e ≠ 0 :=
  (mem_entries.1 (h.mem_iff.2 he)).1

theorem nodup (h : t.Holds es) : (es.map Entry.key).Nodup :=
  (h.perm.map Entry.key).nodup_iff.1 (nodup_entries h.inPlace)

theorem count_eq (h : t.Holds es) : t.count = es.length := by
  rw [count_eq_length, h.perm.length_eq]

theorem of_perm {es' : List α} (h : t.Holds es) (hperm : es.Perm es') : t.Holds es' :=
  ⟨h.inPlace, h.perm.trans hperm⟩

theorem find_eq_some_iff (h : t.Holds es) {key : UInt64} {e : α} :
    t.find key = some e ↔ e ∈ es ∧ Entry.key e = key := by
  rw [Buckets.find_eq_some_iff h.inPlace, h.mem_iff]

/-- What is found does not depend on the buckets, their number or the order in which they were
filled. -/
theorem find_eq_find {t' : Table α} (h : t.Holds es) (h' : t'.Holds es) (key : UInt64) :
    t.find key = t'.find key := by
  apply Option.ext
  intro e
  rw [h.find_eq_some_iff, h'.find_eq_some_iff]

/-- A search answers from the list of entries. -/
theorem find_eq (h : t.Holds es) (key : UInt64) :
    t.find key = es.find? fun e => Entry.key e == key := by
  cases hfound : es.find? fun e => Entry.key e == key with
  | some e =>
    rw [h.find_eq_some_iff]
    exact ⟨List.mem_of_find?_eq_some hfound, by simpa using List.find?_some hfound⟩
  | none =>
    rw [Option.eq_none_iff_forall_not_mem]
    intro e he
    obtain ⟨hmem, hkey⟩ := h.find_eq_some_iff.1 he
    exact List.find?_eq_none.1 hfound e hmem (by simpa using hkey)

/-- The keys that are found are those of the entries. -/
theorem isSome_find (h : t.Holds es) {key : UInt64} :
    (t.find key).isSome ↔ key ∈ es.map Entry.key := by
  simp only [Option.isSome_iff_exists, h.find_eq_some_iff, List.mem_map]

/-- What becomes of one more entry. -/
theorem insert_eq (h : t.Holds es) (e : α) :
    (t.insert e).1 =
      (if Entry.key e = 0 then .error .reservedKey
      else if t.slots.size ≤ t.count + 1 then .error (.tableFull t.slots.size)
      else if Entry.key e ∈ es.map Entry.key then .error (.duplicateKey (Entry.key e))
      else .ok ()) ∧
    ((t.insert e).1 = .ok () → (t.insert e).2.Holds (es ++ [e])) ∧
    ((t.insert e).1 ≠ .ok () → (t.insert e).2 = t) := by
  obtain ⟨hres, hsame⟩ := t.insert_eq_ite e
  simp only [h.isSome_find] at hres
  refine ⟨hres, ?_, hsame⟩
  intro hok
  obtain ⟨i, hi, empty, present, room, -, hs, heq⟩ := exists_of_insert_eq_ok hok
  have hplace : (t.place e i hi empty present room).Holds (es ++ [e]) :=
    ⟨place_inPlace h.inPlace hs,
      entries_place.trans ((h.perm.cons e).trans (List.perm_append_singleton e es).symm)⟩
  rw [heq]
  exact hplace

end Holds

/-- Inserts entries one after another, whatever becomes of each of them: the table behind them, and
those that were accepted, oldest first. -/
def insertEach (t : Table α) : List α → Table α × List α
  | [] => (t, [])
  | e :: es =>
    let rest := (t.insert e).2.insertEach es
    match (t.insert e).1 with
    | .ok () => (rest.1, e :: rest.2)
    | .error _ => rest

/-- An empty table holds nothing. -/
theorem holds_withBuckets {buckets : Nat} {mode : BucketMode} {t : Table α}
    (h : withBuckets buckets mode = .ok t) : t.Holds [] ∧ t.slots.size = buckets := by
  unfold withBuckets at h
  split at h
  next => cases h
  next =>
    split at h
    next =>
      split at h
      next => cases h
      next =>
        cases h
        refine ⟨⟨fun i hi => absurd ?_ hi, ?_⟩, Array.size_replicate⟩
        · rw [keyAt, Array.getElem?_replicate]
          split
          next => exact Entry.key_blank
          next => rfl
        · simp [entries, Entry.key_blank]
    next => cases h

/-- A run of insertions keeps the entries in place and adds those that it accepts. -/
theorem holds_insertEach {t : Table α} {held : List α} (h : t.Holds held) (es : List α) :
    (t.insertEach es).1.Holds (held ++ (t.insertEach es).2) ∧
      (t.insertEach es).1.slots.size = t.slots.size := by
  induction es generalizing t held with
  | nil =>
    rw [insertEach, List.append_nil]
    exact ⟨h, rfl⟩
  | cons e es ih =>
    obtain ⟨-, hok, herror⟩ := h.insert_eq e
    rw [insertEach]
    split
    next hres =>
      have hrest := ih (hok hres)
      rw [List.append_assoc, List.singleton_append, size_insert] at hrest
      exact hrest
    next err hres =>
      have hsame := herror (by rw [hres]; simp)
      rw [hsame]
      exact ih h

/-- **A probe table is a finite map.** After any insertions into an empty table, in any order and
with any keys, let `M` be the entries that were accepted. Their keys are distinct and none is zero;
a search finds the entry of `M` with the key, and nothing if there is none; the count is that of `M`
and leaves a bucket empty; the entries listed are those of `M`, each once. The next entry is refused
as reserved, for want of room or as a duplicate, in this order, and a refusal changes nothing. -/
theorem insertEach_finite_map {buckets : Nat} {mode : BucketMode} {empty : Table α}
    (h : withBuckets buckets mode = .ok empty) (es : List α) :
    let t := (empty.insertEach es).1
    let M := (empty.insertEach es).2
    (M.map Entry.key).Nodup ∧ (∀ e ∈ M, Entry.key e ≠ 0) ∧
      (∀ key, t.find key = M.find? fun e => Entry.key e == key) ∧
      t.count = M.length ∧ M.length < buckets ∧ t.entries.Perm M ∧
      ∀ e, (t.insert e).1 =
          (if Entry.key e = 0 then .error .reservedKey
          else if buckets ≤ t.count + 1 then .error (.tableFull buckets)
          else if Entry.key e ∈ M.map Entry.key then .error (.duplicateKey (Entry.key e))
          else .ok ()) ∧
        ((t.insert e).1 ≠ .ok () → (t.insert e).2 = t) := by
  intro t M
  obtain ⟨hempty, hbuckets⟩ := holds_withBuckets h
  obtain ⟨hholds, hsize⟩ := holds_insertEach hempty es
  have ht : t.Holds M := hholds
  have hb : t.slots.size = buckets := hsize.trans hbuckets
  refine ⟨ht.nodup, fun e he => ht.key_ne_zero he, ht.find_eq, ht.count_eq, ?_, ht.perm, ?_⟩
  · rw [← ht.count_eq, ← hb]
    exact t.count_lt
  · intro e
    obtain ⟨hres, -, hsame⟩ := ht.insert_eq e
    rw [hb] at hres
    exact ⟨hres, hsame⟩

/-- Of five buckets, two keys with the last one as their home: the second goes around the end. -/
theorem insertEach_finite_map_wrapping :
    ∃ empty : Table KeyValue, withBuckets 5 .divide = .ok empty ∧
      let t := (empty.insertEach [⟨4, 10⟩, ⟨9, 20⟩, ⟨4, 30⟩, ⟨0, 40⟩]).1
      (∀ key, t.find key =
        [(⟨4, 10⟩ : KeyValue), ⟨9, 20⟩].find? fun e => Entry.key e == key) ∧
      t.count = 2 ∧ (t.insert ⟨9, 50⟩).1 = .error (.duplicateKey 9) := by
  refine ⟨_, rfl, ?_⟩
  have hempty : withBuckets (α := KeyValue) 5 .divide = .ok _ := rfl
  obtain ⟨-, -, hfind, hcount, -, -, hinsert⟩ :=
    insertEach_finite_map hempty [⟨4, 10⟩, ⟨9, 20⟩, ⟨4, 30⟩, ⟨0, 40⟩]
  exact ⟨hfind, hcount, (hinsert ⟨9, 50⟩).1⟩

end Table

end Ngram
