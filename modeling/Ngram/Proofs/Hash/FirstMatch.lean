import Mathlib.Order.Bounds.Basic
import Ngram.Model.Weights
import Ngram.Proofs.Hash.Checked

/-!
# The first match from any bucket

A search may be told to begin anywhere: at the home of its key, or at a bucket that was worked out
for another key or for another table. Here its outcome is said by offsets, without the scan:

> `FirstMatch`: the least offset at which a bucket holds the key, with no empty bucket in front.
> `bucketOf?_eq_some_iff_firstMatch`: a search ends in the bucket at this offset, and nowhere else.
> `distance_eq_some_iff`: the distance of a key is this offset from its home on.
> `complete_first_match`: both together, with what comes of a bucket that is not there.

The buckets may be filled in any way. A key may stand twice, in the wrong places or with the same
entry, and no bucket need be empty.

A distance is worked out from the address of the entry that was found, not from what it holds, so
that one of several equal entries is not taken for another. `distanceChecked_eq` says that this
leads back to the bucket in which the search ended, and that no step overflows.
-/

namespace Ngram

/-- Where the record of bucket `i` lies in memory, if that of the first bucket lies at `base`. -/
def Entry.address (α : Type) [Entry α] (base i : Nat) : Nat := base + i * Entry.bytes α

namespace Buckets

variable {α : Type} [Entry α]

/-- Going from bucket `i` on once around, `d` is the least offset at which a bucket holds the key,
and no bucket in front of it is empty. -/
structure FirstMatch (b : Buckets α) (key : UInt64) (i d : Nat) : Prop where
  isLeast : IsLeast {d | d < b.slots.size ∧ b.keyAt (b.behind i d) = key} d
  taken : ∀ d' < d, b.keyAt (b.behind i d') ≠ 0

section FirstMatch

variable {b : Buckets α} {key : UInt64} {i d : Nat}

theorem FirstMatch.lt (h : b.FirstMatch key i d) : d < b.slots.size := h.isLeast.1.1

theorem FirstMatch.keyAt_eq (h : b.FirstMatch key i d) : b.keyAt (b.behind i d) = key :=
  h.isLeast.1.2

theorem behind_lt (b : Buckets α) (i d : Nat) : b.behind i d < b.slots.size :=
  Nat.mod_lt _ b.slots_pos

/-- A search goes as far as the first match: the buckets in front of it hold other keys. -/
theorem firstMatch_iff : b.FirstMatch key i d ↔
    d < b.slots.size ∧ b.keyAt (b.behind i d) = key ∧ b.Passes key i d := by
  constructor
  · intro h
    refine ⟨h.lt, h.keyAt_eq, ?_⟩
    rintro d' hd' (hkey | hempty)
    · have hle : d ≤ d' := h.isLeast.2 ⟨Nat.lt_trans hd' h.lt, hkey⟩
      omega
    · exact h.taken d' hd' hempty
  · intro h
    obtain ⟨hlt, hkey, hpass⟩ := h
    refine ⟨⟨⟨hlt, hkey⟩, ?_⟩, fun d' hd' hempty => hpass d' hd' (Or.inr hempty)⟩
    intro d' hd'
    by_contra hless
    exact hpass d' (Nat.lt_of_not_le hless) (Or.inl hd'.2)

/-- **A search ends at the first match**, from whatever bucket it begins. -/
theorem bucketOf?_eq_some_iff_firstMatch {j : Nat} (hkey : key ≠ 0) (hi : i < b.slots.size) :
    b.bucketOf? key i = some j ↔ ∃ d, b.FirstMatch key i d ∧ b.behind i d = j := by
  simp only [bucketOf?_eq_some_iff, scan_eq_some_iff hi, firstMatch_iff]
  constructor
  · intro h
    obtain ⟨-, ⟨d, hd, rfl, -, hpass⟩, hheld⟩ := h
    exact ⟨d, ⟨hd, hheld, hpass⟩, rfl⟩
  · intro h
    obtain ⟨d, ⟨hd, hheld, hpass⟩, rfl⟩ := h
    exact ⟨hkey, ⟨d, hd, rfl, Or.inl hheld, hpass⟩, hheld⟩

theorem bucketOf?_eq_none_iff_firstMatch (hkey : key ≠ 0) (hi : i < b.slots.size) :
    b.bucketOf? key i = none ↔ ∀ d, ¬ b.FirstMatch key i d := by
  rw [Option.eq_none_iff_forall_ne_some]
  constructor
  · intro h d hd
    exact h _ ((bucketOf?_eq_some_iff_firstMatch hkey hi).2 ⟨d, hd, rfl⟩)
  · intro h j hj
    obtain ⟨d, hd, -⟩ := (bucketOf?_eq_some_iff_firstMatch hkey hi).1 hj
    exact h d hd

theorem bucketOf?_lt {j : Nat} (h : b.bucketOf? key i = some j) : j < b.slots.size :=
  scan_lt (bucketOf?_eq_some_iff.1 h).2.1

/-- An entry is given back whenever a bucket is found. -/
theorem complete_eq_none_iff : b.complete key i = none ↔ b.bucketOf? key i = none := by
  rw [complete, Option.bind_eq_none_iff]
  constructor
  · intro h
    rw [Option.eq_none_iff_forall_ne_some]
    intro j hj
    have hnone := h j hj
    rw [Array.getElem?_eq_getElem (bucketOf?_lt hj)] at hnone
    cases hnone
  · intro h j hj
    rw [h] at hj
    cases hj

/-- What is given back is the entry at the first match. -/
theorem FirstMatch.exists_complete (hkey : key ≠ 0) (hi : i < b.slots.size)
    (h : b.FirstMatch key i d) :
    ∃ e, b.slots[b.behind i d]? = some e ∧ b.complete key i = some e := by
  have hslot := Array.getElem?_eq_getElem (b.behind_lt i d)
  refine ⟨_, hslot, ?_⟩
  rw [complete, (bucketOf?_eq_some_iff_firstMatch hkey hi).2 ⟨d, h, rfl⟩, Option.bind_some, hslot]

end FirstMatch

section Distance

variable {b : Buckets α} {key : UInt64} {i d : Nat}

/-- The way back from a bucket is the offset at which it was reached, around the end of the array or
not. -/
theorem behind_back (hi : i < b.slots.size) (hd : d < b.slots.size) :
    (b.behind i d + b.slots.size - i) % b.slots.size = d := by
  rw [behind]
  -- less than a round was gone, so the end of the array was passed once at most
  rcases Nat.lt_or_ge (i + d) b.slots.size with hlt | hge
  · rw [Nat.mod_eq_of_lt hlt, show i + d + b.slots.size - i = d + b.slots.size by omega,
      Nat.add_mod_right, Nat.mod_eq_of_lt hd]
  · rw [Nat.mod_eq_sub_mod hge, Nat.mod_eq_of_lt (by omega : i + d - b.slots.size < b.slots.size),
      show i + d - b.slots.size + b.slots.size - i = d by omega, Nat.mod_eq_of_lt hd]

/-- **The distance of a key is the offset of its first match** from its home on. -/
theorem distance_eq_some_iff (hkey : key ≠ 0) :
    b.distance key = some d ↔ b.FirstMatch key (b.locate key) d := by
  have hhome := b.locate_lt key
  rw [distance, Option.map_eq_some_iff]
  constructor
  · intro h
    obtain ⟨j, hj, hback⟩ := h
    obtain ⟨d', hfirst, rfl⟩ := (bucketOf?_eq_some_iff_firstMatch hkey hhome).1 hj
    have hd' : d' = d := (behind_back hhome hfirst.lt).symm.trans hback
    exact hd' ▸ hfirst
  · intro hfirst
    exact ⟨_, (bucketOf?_eq_some_iff_firstMatch hkey hhome).2 ⟨d, hfirst, rfl⟩,
      behind_back hhome hfirst.lt⟩

theorem distance_eq_none_iff : b.distance key = none ↔ b.find key = none := by
  rw [distance, Option.map_eq_none_iff, find, complete_eq_none_iff]

/-- The first bucket whose entry lies at an address. -/
def bucketAt? (b : Buckets α) (base address : Nat) : Option Nat :=
  (List.range b.size).find? fun i => Entry.address α base i == address

/-- The distance with each step checked, from the address at which the entry was found: an error if
the bucket there and a whole round do not add up in 64 bits, or the home cannot be taken from
them. -/
def distanceChecked (b : Buckets α) (base : Nat) (key : UInt64) : Except Error (Option Nat) := do
  let home ← b.locateChecked key
  match (b.bucketOf? key home).bind fun i => b.bucketAt? base (Entry.address α base i) with
  | none => .ok none
  | some i =>
    match Reciprocal.fit? 64 (i + b.size) with
    | none => .error .outOfRange
    | some sum =>
      if home ≤ sum then .ok (some ((sum - home) % b.size)) else .error .outOfRange

/-- Entries that take up memory have different addresses, whatever they hold. -/
theorem bucketAt?_address (hbytes : 0 < Entry.bytes α) (base : Nat) (hi : i < b.slots.size) :
    b.bucketAt? base (Entry.address α base i) = some i := by
  rw [bucketAt?, List.find?_range_eq_some]
  refine ⟨by simp, List.mem_range.2 hi, ?_⟩
  intro j hj
  have hless : Entry.address α base j < Entry.address α base i :=
    Nat.add_lt_add_left (Nat.mul_lt_mul_of_pos_right hj hbytes) base
  simpa using Nat.ne_of_lt hless

/-- **A distance is worked out without a fault** from the address of the entry that was found, if
the entries take up memory and no more than there can be. -/
theorem distanceChecked_eq (hbytes : 0 < Entry.bytes α) (hmemory : b.memory ≤ maxBytes) (base : Nat)
    (key : UInt64) : b.distanceChecked base key = .ok (b.distance key) := by
  have hhome := b.locate_lt key
  have hsize : b.size < 2 ^ 63 := by
    have hle : b.size * 1 ≤ b.memory := Nat.mul_le_mul_left _ hbytes
    unfold maxBytes at hmemory
    omega
  simp only [distanceChecked, locateChecked_eq, bind, Except.bind, distance]
  cases hfound : b.bucketOf? key (b.locate key) with
  | none => rfl
  | some i =>
    -- the address leads back to bucket `i`, and adding a round keeps the subtraction from wrapping
    have hi : i < b.size := bucketOf?_lt hfound
    have hhome' : b.locate key ≤ i + b.size :=
      Nat.le_trans (Nat.le_of_lt hhome) (Nat.le_add_left ..)
    simp only [Option.bind_some, bucketAt?_address hbytes base hi,
      Reciprocal.fit?_of_lt (show i + b.size < 2 ^ 64 by omega), if_pos hhome', Option.map_some]

end Distance

/-- **A search finds the first match in front of a gap**, from any bucket and whatever the buckets
hold. It reads no bucket outside of the array. From a bucket that is not there nothing is found.
From any other one it ends at the first match, and gives back the entry of that bucket; if there is
none, it finds nothing. The distance of a key is the offset of the first match from its home on; it
has none just when the key is not found, and it is worked out without a fault. -/
theorem complete_first_match (b : Buckets α) {key : UInt64} (hkey : key ≠ 0) :
    (∀ cursor, b.completeChecked key cursor = .ok (b.complete key cursor) ∧
      (b.slots.size ≤ cursor → b.complete key cursor = none) ∧
      (cursor < b.slots.size →
        (∀ d, b.FirstMatch key cursor d →
          b.bucketOf? key cursor = some ((cursor + d) % b.slots.size) ∧
          ∃ e, b.slots[(cursor + d) % b.slots.size]? = some e ∧
            b.complete key cursor = some e) ∧
        ((∀ d, ¬ b.FirstMatch key cursor d) → b.complete key cursor = none))) ∧
    (∀ d, b.distance key = some d ↔ b.FirstMatch key (b.locate key) d) ∧
    (b.distance key = none ↔ b.find key = none) ∧
    ∀ base, 0 < Entry.bytes α → b.memory ≤ maxBytes →
      b.distanceChecked base key = .ok (b.distance key) := by
  refine ⟨?_, fun d => distance_eq_some_iff hkey, distance_eq_none_iff,
    fun base hbytes hmemory => distanceChecked_eq hbytes hmemory base key⟩
  intro cursor
  refine ⟨b.completeChecked_eq key cursor, complete_of_le, ?_⟩
  intro hlt
  constructor
  · intro d hfirst
    exact ⟨(bucketOf?_eq_some_iff_firstMatch hkey hlt).2 ⟨d, hfirst, rfl⟩,
      hfirst.exists_complete hkey hlt⟩
  · intro hnone
    rwa [complete_eq_none_iff, bucketOf?_eq_none_iff_firstMatch hkey hlt]

/-- Five buckets as a file may hold them. Eight and eighteen have the fourth one as their home;
eight is there twice, with the same number. -/
def fiveBuckets : Buckets KeyValue where
  slots := #[⟨8, 10⟩, ⟨18, 4⟩, ⟨0, 99⟩, ⟨13, 2⟩, ⟨8, 10⟩]
  reducer := .divide (Reciprocal.ofDivisor 5)
  slots_pos := by decide
  slots_lt := by decide
  reducer_eq := rfl

/-- From its home on, eight is met in the last bucket and not in the first one. Eighteen is met
behind both, around the end. Nothing is found from the empty bucket on, nor from a seventh one. -/
theorem complete_first_match_repeated :
    (8 : UInt64) ≠ 0 ∧ fiveBuckets.FirstMatch 8 (fiveBuckets.locate 8) 1 ∧
      fiveBuckets.distanceChecked 4096 8 = .ok (some 1) ∧
      fiveBuckets.bucketOf? 8 3 = some 4 ∧ fiveBuckets.complete 8 2 = none ∧
      fiveBuckets.complete 8 6 = none ∧
      (18 : UInt64) ≠ 0 ∧ fiveBuckets.FirstMatch 18 (fiveBuckets.locate 18) 3 := by
  obtain ⟨hcursor, hdistance, -, hchecked⟩ :=
    complete_first_match fiveBuckets (show (8 : UInt64) ≠ 0 by decide)
  obtain ⟨-, hdistance', -⟩ := complete_first_match fiveBuckets (show (18 : UInt64) ≠ 0 by decide)
  have hfirst : fiveBuckets.FirstMatch 8 3 1 := (hdistance 1).1 rfl
  have hgap : ∀ d, ¬ fiveBuckets.FirstMatch 8 2 d := by
    intro d h
    cases d with
    | zero => exact absurd h.keyAt_eq (by decide)
    | succ d => exact h.taken 0 d.succ_pos rfl
  refine ⟨by decide, hfirst, (hchecked 4096 (by decide) (by decide)).trans rfl,
    (((hcursor 3).2.2 (by decide)).1 1 hfirst).1, ((hcursor 2).2.2 (by decide)).2 hgap,
    (hcursor 6).2.1 (by decide), by decide, (hdistance' 3).1 rfl⟩

end Buckets

end Ngram
