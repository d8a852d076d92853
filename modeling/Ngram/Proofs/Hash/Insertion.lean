import Ngram.Proofs.Hash.Scan

/-!
# Where an entry goes

An entry is refused, or it goes to the empty bucket in which the search for its key ends. Nothing
is assumed here about the other buckets: their entries may stand in the wrong places, or twice.

> `insert_eq_ite`: why an entry is refused, from what a search finds.
> `find_insert_self`: an entry that is accepted is found.
> `find_insert`: what was found is found again.

The last one holds since no search passes an empty bucket: filling one lets no search end earlier
(`scan_place`).
-/

namespace Ngram

variable {α : Type} [Entry α]

namespace Buckets

/-- A key is found if the search for it ends in a bucket that is taken. -/
theorem isSome_find_iff {b : Buckets α} {key : UInt64} (hk : key ≠ 0) {i : Nat}
    (hscan : b.scan key (b.locate key) b.slots.size = some i) :
    (b.find key).isSome ↔ b.keyAt i ≠ 0 := by
  obtain ⟨-, -, -, hstop, -⟩ := (scan_eq_some_iff (b.locate_lt _)).1 hscan
  have hi := scan_lt hscan
  simp only [Option.isSome_iff_exists, find, complete_eq_some_iff, hscan]
  constructor
  · intro h
    obtain ⟨e, -, hkey, j, hj, he⟩ := h
    cases hj
    rwa [keyAt_of_getElem? he, hkey]
  · intro hne
    rw [Stops, or_iff_left hne, keyAt_of_lt hi] at hstop
    exact ⟨b.slots[i], hk, hstop, i, rfl, Array.getElem?_eq_getElem hi⟩

end Buckets

namespace Table

open Buckets

theorem slots_place {t : Table α} {e : α} {i : Nat} {hi : i < t.slots.size}
    {empty : isPresent t.slots[i] = false} {present : isPresent e = true}
    {room : t.count + 1 < t.slots.size} :
    (t.place e i hi empty present room).slots = t.slots.set i e hi := rfl

theorem locate_place {t : Table α} {e : α} {i : Nat} {hi : i < t.slots.size}
    {empty : isPresent t.slots[i] = false} {present : isPresent e = true}
    {room : t.count + 1 < t.slots.size} (key : UInt64) :
    (t.place e i hi empty present room).locate key = t.locate key := rfl

section Place

variable {t : Table α} {e : α} {i : Nat} {hi : i < t.slots.size}
  {empty : isPresent t.slots[i] = false} {present : isPresent e = true}
  {room : t.count + 1 < t.slots.size}

theorem size_place : (t.place e i hi empty present room).slots.size = t.slots.size := by
  rw [slots_place, Array.size_set]

theorem keyAt_place (j : Nat) :
    (t.place e i hi empty present room).keyAt j = if j = i then Entry.key e else t.keyAt j := by
  rw [keyAt, slots_place, Array.getElem?_set]
  by_cases h : j = i
  · simp [h]
  · rw [if_neg (Ne.symm h), if_neg h, keyAt]

/-- The bucket that takes an entry was empty. -/
theorem keyAt_of_empty (hi : i < t.slots.size) (empty : isPresent t.slots[i] = false) :
    t.keyAt i = 0 := by
  rw [keyAt_of_lt hi]
  simpa [isPresent] using empty

/-- A search that ended in a bucket goes as far as before, if it still ends there: it did not pass
bucket `i`, which was empty. -/
theorem scan_place {key : UInt64} {a j : Nat} (ha : a < t.slots.size)
    (hscan : t.scan key a t.slots.size = some j)
    (hstop : (t.place e i hi empty present room).Stops key j) :
    (t.place e i hi empty present room).scan key a t.slots.size = some j := by
  have hbehind : ∀ d, (t.place e i hi empty present room).behind a d = t.behind a d := by
    intro d
    rw [behind, size_place, behind]
  obtain ⟨d, hd, hb, -, hp⟩ := (scan_eq_some_iff ha).1 hscan
  rw [scan_eq_some_iff (by rw [size_place]; exact ha)]
  refine ⟨d, hd, (hbehind d).trans hb, hstop, ?_⟩
  intro d' hd' hstop'
  rw [hbehind] at hstop'
  have hpass := hp d' hd'
  have hne : t.behind a d' ≠ i := by
    intro heq
    rw [heq] at hpass
    exact hpass (Or.inr (keyAt_of_empty hi empty))
  rw [Stops, keyAt_place _, if_neg hne] at hstop'
  exact hpass hstop'

end Place

/-- At least one bucket is empty, so that every search ends. -/
theorem exists_empty (t : Table α) : ∃ i < t.slots.size, t.keyAt i = 0 := by
  by_contra hall
  have hfull : t.slots.countP isPresent = t.slots.size := by
    rw [Array.countP_eq_size]
    intro e he
    obtain ⟨i, hi, rfl⟩ := Array.mem_iff_getElem.1 he
    have hne : t.keyAt i ≠ 0 := fun hz => hall ⟨i, hi, hz⟩
    rw [keyAt_of_lt hi] at hne
    simpa [isPresent] using hne
  have := t.count_lt
  rw [t.count_eq, hfull] at this
  exact Nat.lt_irrefl _ this

theorem scan_locate_ne_none (t : Table α) (key : UInt64) :
    t.scan key (t.locate key) t.slots.size ≠ none := by
  obtain ⟨j, hj, hempty⟩ := t.exists_empty
  exact scan_ne_none (t.locate_lt key) hj hempty

/-- An entry is refused for one of three reasons, or put where the search for its key ends. -/
theorem insert_cases (t : Table α) (e : α) :
    (Entry.key e = 0 ∧ t.insert e = (.error .reservedKey, t)) ∨
    (Entry.key e ≠ 0 ∧ t.slots.size ≤ t.count + 1 ∧
      t.insert e = (.error (.tableFull t.slots.size), t)) ∨
    (∃ i, Entry.key e ≠ 0 ∧ t.count + 1 < t.slots.size ∧
      t.scan (Entry.key e) (t.locate (Entry.key e)) t.slots.size = some i ∧ t.keyAt i ≠ 0 ∧
      t.insert e = (.error (.duplicateKey (Entry.key e)), t)) ∨
    (∃ i hi empty present room, Entry.key e ≠ 0 ∧
      t.scan (Entry.key e) (t.locate (Entry.key e)) t.slots.size = some i ∧
      t.insert e = (.ok (), t.place e i hi empty present room)) := by
  unfold insert
  split
  next hk => exact Or.inl ⟨hk, rfl⟩
  next hk =>
    split
    next room =>
      split
      next hs => exact absurd hs (t.scan_locate_ne_none _)
      next i hs =>
        -- there is room, so the search ended in an empty bucket or at the key
        have hi := scan_lt hs
        have present : isPresent e = true := by simp [isPresent, hk]
        by_cases empty : isPresent t.slots[i] = false
        · rw [dif_pos empty]
          exact Or.inr (Or.inr (Or.inr ⟨i, hi, empty, present, room, hk, hs, rfl⟩))
        · rw [dif_neg empty]
          refine Or.inr (Or.inr (Or.inl ⟨i, hk, room, hs, ?_, rfl⟩))
          rw [keyAt_of_lt hi]
          simpa [isPresent] using empty
    next room => exact Or.inr (Or.inl ⟨hk, Nat.le_of_not_lt room, rfl⟩)

/-- An entry that is accepted is put where the search for its key ends. -/
theorem exists_of_insert_eq_ok {t : Table α} {e : α} (h : (t.insert e).1 = .ok ()) :
    ∃ i hi empty present room, Entry.key e ≠ 0 ∧
      t.scan (Entry.key e) (t.locate (Entry.key e)) t.slots.size = some i ∧
      t.insert e = (.ok (), t.place e i hi empty present room) := by
  rcases t.insert_cases e with ⟨-, heq⟩ | ⟨-, -, heq⟩ | ⟨i, -, -, -, -, heq⟩ | hplace
  · rw [heq] at h
    cases h
  · rw [heq] at h
    cases h
  · rw [heq] at h
    cases h
  · exact hplace

theorem size_insert (t : Table α) (e : α) : (t.insert e).2.slots.size = t.slots.size := by
  rcases t.insert_cases e with ⟨-, heq⟩ | ⟨-, -, heq⟩ | ⟨-, -, -, -, -, heq⟩ |
    ⟨i, hi, empty, present, room, -, -, heq⟩
  · rw [heq]
  · rw [heq]
  · rw [heq]
  · rw [heq, size_place]

/-- **What becomes of one more entry**, however the buckets were filled. -/
theorem insert_eq_ite (t : Table α) (e : α) :
    (t.insert e).1 =
      (if Entry.key e = 0 then .error .reservedKey
      else if t.slots.size ≤ t.count + 1 then .error (.tableFull t.slots.size)
      else if (t.find (Entry.key e)).isSome then .error (.duplicateKey (Entry.key e))
      else .ok ()) ∧
    ((t.insert e).1 ≠ .ok () → (t.insert e).2 = t) := by
  rcases t.insert_cases e with ⟨hk, heq⟩ | ⟨hk, hfull, heq⟩ | ⟨i, hk, room, hs, htaken, heq⟩ |
    ⟨i, hi, empty, present, room, hk, hs, heq⟩
  · rw [heq, if_pos hk]
    exact ⟨rfl, fun _ => rfl⟩
  · rw [heq, if_neg hk, if_pos hfull]
    exact ⟨rfl, fun _ => rfl⟩
  · rw [heq, if_neg hk, if_neg (by omega), if_pos ((isSome_find_iff hk hs).2 htaken)]
    exact ⟨rfl, fun _ => rfl⟩
  · -- the search ended in an empty bucket, so the key is new
    have hnew : ¬ (t.find (Entry.key e)).isSome := by
      rw [isSome_find_iff hk hs]
      exact not_not_intro (keyAt_of_empty hi empty)
    rw [heq, if_neg hk, if_neg (by omega), if_neg hnew]
    exact ⟨rfl, fun hne => absurd rfl hne⟩

/-- **An entry that is accepted is found.** -/
theorem find_insert_self {t : Table α} {e : α} (h : (t.insert e).1 = .ok ()) :
    (t.insert e).2.find (Entry.key e) = some e := by
  obtain ⟨i, hi, empty, present, room, hk, hs, heq⟩ := exists_of_insert_eq_ok h
  have hslot : (t.place e i hi empty present room).slots[i]? = some e := by
    rw [slots_place, Array.getElem?_set_self]
  have hstop : (t.place e i hi empty present room).Stops (Entry.key e) i :=
    Or.inl (keyAt_of_getElem? hslot)
  rw [heq, find, complete_eq_some_iff]
  exact ⟨hk, rfl, i, by rw [size_place]; exact scan_place (t.locate_lt _) hs hstop, hslot⟩

/-- **What was found is found again**, whether the entry is accepted or not. -/
theorem find_insert {t : Table α} {key : UInt64} {found : α} (h : t.find key = some found)
    (e : α) : (t.insert e).2.find key = some found := by
  by_cases hok : (t.insert e).1 = .ok ()
  · obtain ⟨i, hi, empty, present, room, -, -, heq⟩ := exists_of_insert_eq_ok hok
    obtain ⟨hk, hkey, j, hs, hj⟩ := complete_eq_some_iff.1 h
    -- the bucket that is filled was empty, so it is another one
    have hne : i ≠ j := by
      rintro rfl
      have hzero := keyAt_of_empty hi empty
      rw [keyAt_of_getElem? hj, hkey] at hzero
      exact hk hzero
    have hslot : (t.place e i hi empty present room).slots[j]? = some found := by
      rw [slots_place, Array.getElem?_set_ne hi hne, hj]
    have hstop : (t.place e i hi empty present room).Stops key j :=
      Or.inl ((keyAt_of_getElem? hslot).trans hkey)
    rw [heq, find, complete_eq_some_iff]
    exact ⟨hk, hkey, j, by rw [size_place]; exact scan_place (t.locate_lt _) hs hstop, hslot⟩
  · rw [(t.insert_eq_ite e).2 hok]
    exact h

end Table

end Ngram
