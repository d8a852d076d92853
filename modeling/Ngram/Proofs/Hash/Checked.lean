import Ngram.Hash.Key
import Ngram.Proofs.Hash.Scan

/-!
# Searches with every access checked

A search works out a home bucket, and reads one bucket after another from there on. Here it is said
once more as a machine would have to carry it out: each number has to fit into its width, and each
bucket that is read has to be there. Otherwise the outcome is an error, which the search as it was
defined could not tell from a key that is missing.

> `locateChecked_eq`: the home bucket of any key is worked out, and lies inside of the array.
> `completeChecked_eq`: a scan reads no bucket outside of the array, wherever it begins.

Both hold of any buckets, however they were filled: the number of buckets bounds each scan, so that
it need not meet the key or an empty bucket.
-/

namespace Ngram

/-- One more word in a key with its sum checked; the products are meant to wrap. -/
def combine? (key : UInt64) (word : Word) : Option UInt64 :=
  (Reciprocal.fit? 64 (1 + word.toNat)).map fun older =>
    key * keyFactor ^^^ older.toUInt64 * wordFactor

/-- Taking a word into a key does not overflow. -/
theorem combine?_eq (key : UInt64) (word : Word) : combine? key word = some (combine key word) := by
  have hword := word.toNat_lt
  have hfits : 1 + word.toNat < 2 ^ 64 := by omega
  have hsum : (1 + word.toNat).toUInt64 = 1 + word.toUInt64 := by
    rw [← UInt64.toNat_inj, Nat.toUInt64_eq, UInt64.toNat_ofNat', UInt64.toNat_add,
      UInt32.toNat_toUInt64]
    rfl
  rw [combine?, Reciprocal.fit?_of_lt hfits, Option.map_some, hsum]
  rfl

namespace Reducer

/-- The home bucket of a key with each step checked. -/
def reduce? (r : Reducer) (key : UInt64) : Option Nat :=
  match r with
  | divide d => d.remainder? key
  | mask m => some (key &&& m).toNat

/-- No step of a reducer overflows that was made for a number of buckets. -/
theorem reduce?_eq {buckets : Nat} {mode : BucketMode} {r : Reducer}
    (h : make buckets mode = .ok r) (key : UInt64) : r.reduce? key = some (r.reduce key) := by
  cases r with
  | divide d =>
    obtain rfl : mode = .divide := (mode_of_make h).symm
    cases h
    exact Reciprocal.remainder?_ofDivisor _ key
  | mask m => rfl

end Reducer

namespace Buckets

variable {α : Type} [Entry α]

/-- The first phase of a search with each step checked: an error if the home bucket cannot be worked
out, or if there is no such bucket. -/
def locateChecked (b : Buckets α) (key : UInt64) : Except Error Nat :=
  match b.reducer.reduce? key with
  | some home => if home < b.slots.size then .ok home else .error .outOfRange
  | none => .error .outOfRange

/-- The entry with a key among `left` buckets from bucket `i` on and in front of the first empty
one, where reading a bucket that is not there is an error. -/
def scanChecked (b : Buckets α) (key : UInt64) (i : Nat) : Nat → Except Error (Option α)
  | 0 => .ok none
  | left + 1 =>
    match b.slots[i]? with
    | none => .error .outOfRange
    | some e =>
      if Entry.key e = key then .ok (some e)
      else if Entry.key e = 0 then .ok none
      else b.scanChecked key (b.next i) left

/-- The second phase of a search with each access checked. -/
def completeChecked (b : Buckets α) (key : UInt64) (cursor : Nat) : Except Error (Option α) :=
  if key = 0 ∨ b.slots.size ≤ cursor then .ok none else b.scanChecked key cursor b.slots.size

/-- Both phases with each step checked. -/
def findChecked (b : Buckets α) (key : UInt64) : Except Error (Option α) := do
  let home ← b.locateChecked key
  b.completeChecked key home

/-- **A home bucket is always there**, and no step towards it overflows. -/
theorem locateChecked_eq (b : Buckets α) (key : UInt64) :
    b.locateChecked key = .ok (b.locate key) := by
  unfold locateChecked
  rw [Reducer.reduce?_eq b.reducer_eq]
  exact if_pos (b.locate_lt key)

/-- A scan from a bucket of the array reads no others, and finds what the unchecked one does. -/
theorem scanChecked_eq {b : Buckets α} {key : UInt64} {i : Nat} (hi : i < b.slots.size)
    (left : Nat) : b.scanChecked key i left =
      .ok (((b.scan key i left).filter fun i => (b.slots[i]?.map Entry.key) == some key).bind
        fun i => b.slots[i]?) := by
  induction left generalizing i with
  | zero => rfl
  | succ left ih =>
    rw [scanChecked, scan, Array.getElem?_eq_getElem hi, dif_pos hi]
    by_cases hkey : Entry.key b.slots[i] = key
    · simp [hkey, Option.filter, Array.getElem?_eq_getElem hi]
    · by_cases hzero : Entry.key b.slots[i] = 0
      · have hne : 0 ≠ key := fun h => hkey (hzero.trans h)
        simp [hzero, hne, Option.filter, Array.getElem?_eq_getElem hi]
      · simpa [hkey, hzero] using ih (next_lt hi)

/-- Nothing is found from outside of the array on. -/
theorem scan_of_le {b : Buckets α} {key : UInt64} {i left : Nat} (hi : b.slots.size ≤ i) :
    b.scan key i left = none := by
  cases left with
  | zero => rfl
  | succ left => rw [scan, dif_neg (Nat.not_lt_of_le hi)]

theorem complete_of_le {b : Buckets α} {key : UInt64} {cursor : Nat} (h : b.slots.size ≤ cursor) :
    b.complete key cursor = none := by
  simp [complete, bucketOf?, scan_of_le h]

/-- **A scan stays inside of the array**, wherever it begins. -/
theorem completeChecked_eq (b : Buckets α) (key : UInt64) (cursor : Nat) :
    b.completeChecked key cursor = .ok (b.complete key cursor) := by
  rcases Nat.lt_or_ge cursor b.slots.size with hlt | hge
  · unfold completeChecked complete bucketOf?
    by_cases hkey : key = 0
    · simp [hkey]
    · rw [if_neg (by simp [hkey, hlt]), scanChecked_eq hlt, if_neg (by simpa using hkey)]
  · -- a cursor from elsewhere is refused before the first access
    rw [completeChecked, if_pos (Or.inr hge), complete_of_le hge]

theorem findChecked_eq (b : Buckets α) (key : UInt64) : b.findChecked key = .ok (b.find key) := by
  simp only [findChecked, locateChecked_eq, bind, Except.bind, completeChecked_eq]
  rfl

end Buckets

end Ngram
