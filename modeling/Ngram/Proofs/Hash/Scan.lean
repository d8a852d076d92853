import Ngram.Hash.Table
import Ngram.Proofs.Number.Division

/-!
# What a scan finds

A scan walks from bucket to bucket and around the end of the array. Here its result is said without
the walk, by distances: `behind i d` is the bucket `d` places behind bucket `i`, and

> `scan_eq_some_iff`: the scan from bucket `i` ends in the bucket at the least distance that holds
> the key or is empty.

Nothing is assumed about how the buckets were filled. The home bucket of a key is its remainder by
the number of buckets, in either mode (`locate_eq`).
-/

namespace Ngram

namespace Buckets

variable {α : Type} [Entry α]

/-- The key in bucket `i`; there is none outside the array. -/
def keyAt (b : Buckets α) (i : Nat) : UInt64 := (b.slots[i]?.map Entry.key).getD 0

/-- A search for `key` ends in bucket `i`: the bucket holds it or is empty. -/
def Stops (b : Buckets α) (key : UInt64) (i : Nat) : Prop := b.keyAt i = key ∨ b.keyAt i = 0

/-- The bucket `d` places behind bucket `i`, around the end of the array. -/
def behind (b : Buckets α) (i d : Nat) : Nat := (i + d) % b.slots.size

/-- A search for `key` from bucket `i` on passes the first `d` buckets. -/
def Passes (b : Buckets α) (key : UInt64) (i d : Nat) : Prop :=
  ∀ d' < d, ¬ b.Stops key (b.behind i d')

theorem keyAt_of_lt {b : Buckets α} {i : Nat} (h : i < b.slots.size) :
    b.keyAt i = Entry.key b.slots[i] := by
  simp [keyAt, Array.getElem?_eq_getElem h]

theorem keyAt_of_getElem? {b : Buckets α} {i : Nat} {e : α} (h : b.slots[i]? = some e) :
    b.keyAt i = Entry.key e := by
  simp [keyAt, h]

theorem behind_zero {b : Buckets α} {i : Nat} (h : i < b.slots.size) : b.behind i 0 = i :=
  Nat.mod_eq_of_lt h

theorem behind_next (b : Buckets α) (i d : Nat) :
    b.behind (b.next i) d = b.behind i (d + 1) := by
  unfold behind next
  split
  next hend =>
    rw [show i + (d + 1) = 0 + d + b.slots.size by omega, Nat.add_mod_right]
  next => rw [show i + 1 + d = i + (d + 1) by omega]

theorem next_lt {b : Buckets α} {i : Nat} (h : i < b.slots.size) : b.next i < b.slots.size := by
  unfold next
  split
  next => exact b.slots_pos
  next => omega

/-- Every bucket lies behind every other one. -/
theorem exists_behind_eq {b : Buckets α} {i j : Nat} (hi : i < b.slots.size)
    (hj : j < b.slots.size) : ∃ d < b.slots.size, b.behind i d = j := by
  rcases Nat.lt_or_ge j i with hlt | hge
  · refine ⟨j + b.slots.size - i, by omega, ?_⟩
    rw [behind, show i + (j + b.slots.size - i) = j + b.slots.size by omega, Nat.add_mod_right]
    exact Nat.mod_eq_of_lt hj
  · refine ⟨j - i, by omega, ?_⟩
    rw [behind, show i + (j - i) = j by omega]
    exact Nat.mod_eq_of_lt hj

theorem passes_zero (b : Buckets α) (key : UInt64) (i : Nat) : b.Passes key i 0 :=
  fun _ h => absurd h (Nat.not_lt_zero _)

/-- Passing one more bucket is passing the first one and then the others from the next one on. -/
theorem passes_succ {b : Buckets α} {key : UInt64} {i : Nat} (hi : i < b.slots.size) (d : Nat) :
    b.Passes key i (d + 1) ↔ ¬ b.Stops key i ∧ b.Passes key (b.next i) d := by
  constructor
  · intro h
    refine ⟨?_, ?_⟩
    · have := h 0 (Nat.succ_pos d)
      rwa [behind_zero hi] at this
    · intro d' hd'
      rw [behind_next]
      exact h (d' + 1) (Nat.succ_lt_succ hd')
  · intro h d' hd'
    obtain ⟨h₀, h⟩ := h
    cases d' with
    | zero => rwa [behind_zero hi]
    | succ d' =>
      rw [← behind_next]
      exact h d' (Nat.lt_of_succ_lt_succ hd')

/-- The test of a scan is the end of a search. -/
theorem scan_succ {b : Buckets α} {key : UInt64} {i : Nat} (hi : i < b.slots.size) (left : Nat)
    [Decidable (b.Stops key i)] :
    b.scan key i (left + 1) = if b.Stops key i then some i else b.scan key (b.next i) left := by
  rw [scan, dif_pos hi]
  simp only [Stops, keyAt_of_lt hi, Bool.or_eq_true, beq_iff_eq]

/-- A scan ends in the first bucket in which a search for the key ends. -/
theorem scan_eq_some_iff {b : Buckets α} {key : UInt64} {i left j : Nat} (hi : i < b.slots.size) :
    b.scan key i left = some j ↔
      ∃ d < left, b.behind i d = j ∧ b.Stops key j ∧ b.Passes key i d := by
  classical
  induction left generalizing i with
  | zero => simp [scan]
  | succ left ih =>
    rw [scan_succ hi]
    split
    next hs =>
      constructor
      · intro h
        cases h
        exact ⟨0, Nat.succ_pos left, behind_zero hi, hs, b.passes_zero key _⟩
      · intro h
        obtain ⟨d, -, rfl, -, hp⟩ := h
        cases d with
        | zero => rw [behind_zero hi]
        | succ d => exact absurd hs ((passes_succ hi d).1 hp).1
    next hs =>
      rw [ih (next_lt hi)]
      constructor
      · intro h
        obtain ⟨d, hd, hj, hstop, hp⟩ := h
        exact ⟨d + 1, Nat.succ_lt_succ hd, by rw [← behind_next, hj], hstop,
          (passes_succ hi d).2 ⟨hs, hp⟩⟩
      · intro h
        obtain ⟨d, hd, hj, hstop, hp⟩ := h
        cases d with
        | zero =>
          rw [behind_zero hi] at hj
          exact absurd (hj ▸ hstop) hs
        | succ d =>
          exact ⟨d, Nat.lt_of_succ_lt_succ hd, by rw [behind_next, hj], hstop,
            ((passes_succ hi d).1 hp).2⟩

/-- A scan for a key comes back empty-handed when it passes every bucket that it may look at. -/
theorem scan_eq_none_iff {b : Buckets α} {key : UInt64} {i left : Nat} (hi : i < b.slots.size) :
    b.scan key i left = none ↔ b.Passes key i left := by
  classical
  induction left generalizing i with
  | zero => simp [scan, passes_zero]
  | succ left ih =>
    rw [scan_succ hi, passes_succ hi]
    split
    next hs => simp [hs]
    next hs => rw [ih (next_lt hi)]; simp [hs]

/-- A scan of all buckets finds an end as long as one of them is empty. -/
theorem scan_ne_none {b : Buckets α} {key : UInt64} {i j : Nat} (hi : i < b.slots.size)
    (hj : j < b.slots.size) (hempty : b.keyAt j = 0) : b.scan key i b.slots.size ≠ none := by
  obtain ⟨d, hd, rfl⟩ := exists_behind_eq hi hj
  rw [ne_eq, scan_eq_none_iff hi]
  exact fun h => h d hd (Or.inr hempty)

/-- The home bucket of a key is its remainder by the number of buckets. -/
theorem locate_eq (b : Buckets α) (key : UInt64) : b.locate key = key.toNat % b.slots.size := by
  have hpos := b.slots_pos
  have hnat : b.slots.size.toUInt64.toNat = b.slots.size := by
    have := b.slots_lt
    simp only [Nat.toUInt64_eq, UInt64.toNat_ofNat']
    omega
  have hmake := b.reducer_eq
  unfold locate Reducer.reduce
  cases hr : b.reducer with
  | divide d =>
    rw [hr] at hmake
    simp only [Reducer.make, Reducer.mode, Except.ok.injEq, Reducer.divide.injEq] at hmake
    rw [← hmake]
    simp only [Reciprocal.remainder_ofDivisor, hnat, Nat.max_eq_left hpos]
  | mask m =>
    rw [hr] at hmake
    simp only [Reducer.make, Reducer.mode] at hmake
    split at hmake
    next hp =>
      simp only [Except.ok.injEq, Reducer.mask.injEq] at hmake
      rw [← hmake]
      simp only [Reciprocal.and_mask (hnat.symm ▸ hp), hnat]
    next => cases hmake

theorem locate_lt (b : Buckets α) (key : UInt64) : b.locate key < b.slots.size := by
  rw [locate_eq]
  exact Nat.mod_lt _ b.slots_pos

/-- The second phase ends in the bucket in which the scan ends, if it has the key; zero is the key
of no entry. -/
theorem bucketOf?_eq_some_iff {b : Buckets α} {key : UInt64} {cursor i : Nat} :
    b.bucketOf? key cursor = some i ↔
      key ≠ 0 ∧ b.scan key cursor b.slots.size = some i ∧ b.keyAt i = key := by
  unfold bucketOf?
  by_cases hk : key = 0
  · simp [hk]
  · have hheld : b.slots[i]?.map Entry.key = some key ↔ b.keyAt i = key := by
      cases hi : b.slots[i]? with
      | none => simp [keyAt, hi, Ne.symm hk]
      | some e => simp [keyAt, hi]
    rw [if_neg (by simpa using hk), Option.filter_eq_some_iff, beq_iff_eq, hheld]
    exact (and_iff_right hk).symm

/-- It gives back the entry of this bucket. -/
theorem complete_eq_some_iff {b : Buckets α} {key : UInt64} {cursor : Nat} {e : α} :
    b.complete key cursor = some e ↔
      key ≠ 0 ∧ Entry.key e = key ∧
        ∃ i, b.scan key cursor b.slots.size = some i ∧ b.slots[i]? = some e := by
  simp only [complete, Option.bind_eq_some_iff, bucketOf?_eq_some_iff]
  constructor
  · intro h
    obtain ⟨i, ⟨hk, hscan, hkey⟩, he⟩ := h
    exact ⟨hk, (keyAt_of_getElem? he).symm.trans hkey, i, hscan, he⟩
  · intro h
    obtain ⟨hk, hkey, i, hscan, he⟩ := h
    exact ⟨i, ⟨hk, hscan, (keyAt_of_getElem? he).trans hkey⟩, he⟩

end Buckets

end Ngram
