import Ngram.Number.PowerOfTwo
import Ngram.Proofs.Checks
import Ngram.Proofs.Hash.FiniteMap

/-!
# Filling a table

A table for some entries has room for them by its size, so filling it can only fail if a key is zero
or comes twice.

> `Holds.of_insertAll`: a table that was filled holds what it was filled with.
> `Holds.insertAll_eq_ok`: distinct keys, none of them zero, fill a table that has room.
> `Holds.insertAll_eq_error`: such a table refuses entries for their keys only.
> `forEntries_eq_ok_iff`: a table can be made if its buckets can be counted and held.
> `filled_eq_ok_iff`: which entries a table can be made for and filled with, in any order.
-/

namespace Ngram

namespace Table

variable {α : Type} [Entry α] {t t' : Table α} {held es : List α}

/-- A table that was filled holds what it was filled with. -/
theorem Holds.of_insertAll (h : t.Holds held) (hall : t.insertAll es = .ok t') :
    t'.Holds (held ++ es) := by
  induction es generalizing t held with
  | nil =>
    cases hall
    rw [List.append_nil]
    exact h
  | cons e es ih =>
    obtain ⟨-, hok, -⟩ := h.insert_eq e
    rw [insertAll] at hall
    split at hall
    next t₁ hres =>
      rw [hres] at hok
      rw [List.append_cons]
      exact ih (hok rfl) hall
    next => cases hall

theorem size_insertAll (hall : t.insertAll es = .ok t') : t'.slots.size = t.slots.size := by
  induction es generalizing t with
  | nil =>
    cases hall
    rfl
  | cons e es ih =>
    have hsize := size_insert t e
    rw [insertAll] at hall
    split at hall
    next t₁ hres =>
      rw [hres] at hsize
      exact (ih hall).trans hsize
    next => cases hall

/-- Distinct keys, none of them zero, fill a table that has room for them. -/
theorem Holds.insertAll_eq_ok (h : t.Holds held) (hzero : ∀ e ∈ es, Entry.key e ≠ 0)
    (hnodup : ((held ++ es).map Entry.key).Nodup) (hroom : held.length + es.length < t.slots.size) :
    ∃ t', t.insertAll es = .ok t' := by
  induction es generalizing t held with
  | nil => exact ⟨t, rfl⟩
  | cons e es ih =>
    obtain ⟨hres, hok, -⟩ := h.insert_eq e
    rw [List.forall_mem_cons] at hzero
    have hnew : Entry.key e ∉ held.map Entry.key := by
      intro hmem
      rw [List.map_append, List.map_cons] at hnodup
      exact (List.nodup_append.1 hnodup).2.2 _ hmem _ List.mem_cons_self rfl
    rw [List.length_cons] at hroom
    rw [if_neg hzero.1, if_neg (by rw [h.count_eq]; omega), if_neg hnew] at hres
    rw [List.append_cons] at hnodup
    -- the first entry is accepted, and the table behind it has room for the others
    obtain ⟨t', ht'⟩ := ih (hok hres) hzero.2 hnodup (by
      rw [size_insert, List.length_append, List.length_singleton]
      omega)
    refine ⟨t', ?_⟩
    rw [insertAll]
    split
    next hinsert =>
      rw [hinsert] at ht'
      exact ht'
    next hinsert =>
      rw [hinsert] at hres
      cases hres

/-- A table that has room for some entries refuses them for their keys only. -/
theorem Holds.insertAll_eq_error (h : t.Holds held) {err : Error}
    (hroom : held.length + es.length < t.slots.size) (hall : t.insertAll es = .error err) :
    err = .reservedKey ∨ ∃ key, err = .duplicateKey key := by
  induction es generalizing t held with
  | nil => cases hall
  | cons e es ih =>
    obtain ⟨hres, hok, -⟩ := h.insert_eq e
    have hsize := size_insert t e
    rw [List.length_cons] at hroom
    rw [insertAll] at hall
    split at hall
    next t₁ hinsert =>
      rw [hinsert] at hok hsize
      refine ih (hok rfl) ?_ hall
      rw [List.length_append, List.length_singleton, hsize]
      omega
    next err hinsert =>
      cases hall
      rw [hinsert] at hres
      -- the first refusal is for the key, because the table has a bucket left
      by_cases hzero : Entry.key e = 0
      · rw [if_pos hzero] at hres
        cases hres
        exact Or.inl rfl
      · rw [if_neg hzero, if_neg (by rw [h.count_eq]; omega)] at hres
        split at hres
        next =>
          cases hres
          exact Or.inr ⟨_, rfl⟩
        next => cases hres

/-- The buckets for some entries can be counted unless the entries are as many as can be counted:
the product is cut off at that number, and one more than the entries is at least needed. -/
theorem bucketsFor?_eq_ok_iff {entries buckets : Nat} {multiplier : Single} :
    bucketsFor? entries multiplier = .ok buckets ↔
      buckets = bucketsFor entries multiplier ∧ entries + 1 < 2 ^ 64 := by
  have hcount : bucketsFor entries multiplier < 2 ^ 64 ↔ entries + 1 < 2 ^ 64 :=
    Nat.max_lt.trans (and_iff_right (Double.ceilCount_lt _))
  rw [bucketsFor?, ← hcount]
  constructor
  · intro h
    split at h
    next hlt => cases h; exact ⟨rfl, hlt⟩
    next => cases h
  · rintro ⟨rfl, hlt⟩
    exact if_pos hlt

/-- The number of buckets of a table for some entries. -/
def bucketsOf (entries : Nat) (settings : TableSettings) : Nat :=
  match settings.mode with
  | .divide => bucketsFor entries settings.multiplier
  | .mask => nextPowerOfTwo (bucketsFor entries settings.multiplier)

theorem bucketsFor_le_bucketsOf (entries : Nat) (settings : TableSettings) :
    bucketsFor entries settings.multiplier ≤ bucketsOf entries settings := by
  unfold bucketsOf
  split
  next => exact Nat.le_refl _
  next => exact le_nextPowerOfTwo _

theorem lt_bucketsOf (entries : Nat) (settings : TableSettings) :
    entries < bucketsOf entries settings :=
  Nat.lt_of_lt_of_le (lt_bucketsFor _ _) (bucketsFor_le_bucketsOf _ _)

/-- The buckets of a table for some entries can be counted and held. -/
def Fits (α : Type) [Entry α] (entries : Nat) (settings : TableSettings) : Prop :=
  bucketsOf entries settings < 2 ^ 64 ∧ bucketsOf entries settings * Entry.bytes α ≤ maxBytes

/-- A table with a given number of buckets can be made if they can be counted and held, and in mask
mode are a power of two. -/
theorem withBuckets_eq_ok {buckets : Nat} {mode : BucketMode} (hpos : 0 < buckets)
    (hfits : buckets < 2 ^ 64 ∧ buckets * Entry.bytes α ≤ maxBytes)
    (hmask : mode = .mask → isPowerOfTwo buckets = true) :
    ∃ t : Table α, withBuckets buckets mode = .ok t := by
  obtain ⟨r, hr⟩ : ∃ r, Reducer.make buckets mode = .ok r := by
    cases mode with
    | divide => exact ⟨_, rfl⟩
    | mask => exact ⟨_, by rw [Reducer.make, if_pos (hmask rfl)]⟩
  unfold withBuckets
  rw [dif_neg (Nat.ne_of_gt hpos), dif_pos hfits]
  split
  next h => rw [hr] at h; cases h
  next => exact ⟨_, rfl⟩

theorem fits_of_withBuckets {buckets : Nat} {mode : BucketMode} {t : Table α}
    (h : withBuckets buckets mode = .ok t) :
    buckets < 2 ^ 64 ∧ buckets * Entry.bytes α ≤ maxBytes := by
  unfold withBuckets at h
  split at h
  next => cases h
  next =>
    split at h
    next hfits => exact hfits
    next => cases h

/-- Buckets that cannot be counted cannot be held either. -/
theorem forEntries_eq {entries : Nat} {settings : TableSettings}
    (hvalid : settings.validate = .ok ()) :
    forEntries (α := α) entries settings =
      withBuckets (bucketsOf entries settings) settings.mode := by
  unfold forEntries bucketsFor?
  rw [hvalid]
  by_cases hcount : bucketsFor entries settings.multiplier < 2 ^ 64
  · simp only [hcount, if_true]
    rfl
  · have hle := bucketsFor_le_bucketsOf entries settings
    simp only [hcount, if_false]
    rw [withBuckets, dif_neg (by omega), dif_neg (by omega)]
    rfl

/-- A table for some entries can be made if its buckets can be counted and held. -/
theorem forEntries_eq_ok_iff {entries : Nat} {settings : TableSettings}
    (hvalid : settings.validate = .ok ()) :
    (∃ t : Table α, forEntries entries settings = .ok t) ↔ Fits α entries settings := by
  rw [forEntries_eq hvalid]
  constructor
  · intro h
    obtain ⟨t, ht⟩ := h
    exact fits_of_withBuckets ht
  · intro hfits
    refine withBuckets_eq_ok (Nat.zero_lt_of_lt (lt_bucketsOf _ _)) hfits ?_
    intro hmode
    unfold bucketsOf
    rw [hmode]
    exact isPowerOfTwo_nextPowerOfTwo _

/-- A new table for some entries is empty and has room for them. -/
theorem holds_forEntries {entries : Nat} {settings : TableSettings}
    (hvalid : settings.validate = .ok ()) (h : forEntries entries settings = .ok t) :
    t.Holds [] ∧ entries < t.slots.size := by
  rw [forEntries_eq hvalid] at h
  obtain ⟨hholds, hsize⟩ := holds_withBuckets h
  exact ⟨hholds, hsize ▸ lt_bucketsOf _ _⟩

/-- A table that is made for some entries and filled with them. -/
def filled (settings : TableSettings) (es : List α) : Except Error (Table α) := do
  let t ← forEntries es.length settings
  t.insertAll es

/-- A table can be filled, in whatever order, if its buckets can be held and the keys are fit for
it. -/
theorem filled_eq_ok_iff {settings : TableSettings} (hvalid : settings.validate = .ok ()) :
    (∃ t, filled settings es = .ok t) ↔
      Fits α es.length settings ∧ (∀ e ∈ es, Entry.key e ≠ 0) ∧ (es.map Entry.key).Nodup := by
  rw [← forEntries_eq_ok_iff hvalid]
  constructor
  · intro h
    obtain ⟨t, ht⟩ := h
    obtain ⟨empty, hempty, hall⟩ := exists_of_bind_eq_ok ht
    have hfull := (holds_forEntries hvalid hempty).1.of_insertAll hall
    exact ⟨⟨empty, hempty⟩, fun e he => hfull.key_ne_zero he, hfull.nodup⟩
  · intro h
    obtain ⟨⟨empty, hempty⟩, hzero, hnodup⟩ := h
    obtain ⟨hholds, hroom⟩ := holds_forEntries hvalid hempty
    rw [filled, hempty]
    exact hholds.insertAll_eq_ok hzero hnodup (by simpa using hroom)

/-- If its buckets can be held, the entries are refused for their keys only. -/
theorem filled_eq_error {settings : TableSettings} {err : Error}
    (hvalid : settings.validate = .ok ()) (hfits : Fits α es.length settings)
    (h : filled settings es = .error err) :
    err = .reservedKey ∨ ∃ key, err = .duplicateKey key := by
  obtain ⟨empty, hempty⟩ := (forEntries_eq_ok_iff hvalid).2 hfits
  obtain ⟨hholds, hroom⟩ := holds_forEntries hvalid hempty
  rw [filled, hempty] at h
  exact hholds.insertAll_eq_error (by simpa using hroom) h

/-- It holds the entries then, and has as many buckets as were asked for. -/
theorem holds_filled {settings : TableSettings} (hvalid : settings.validate = .ok ())
    (h : filled settings es = .ok t) :
    t.Holds es ∧ t.slots.size = bucketsOf es.length settings := by
  obtain ⟨empty, hempty, hall⟩ := exists_of_bind_eq_ok h
  refine ⟨(holds_forEntries hvalid hempty).1.of_insertAll hall, ?_⟩
  rw [forEntries_eq hvalid] at hempty
  rw [size_insertAll hall, (holds_withBuckets hempty).2]

end Table

end Ngram
