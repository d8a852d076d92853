import Ngram.Number.Reciprocal
import Ngram.Settings

/-!
# Buckets and the probe scan

An array of buckets holds entries by their keys; an entry with key zero marks an empty bucket. A key
has a home bucket, its remainder by the number of buckets. It is searched from there on, bucket by
bucket and around the end of the array, up to the first bucket that holds it or is empty.

The search comes in two phases, so that a caller can do other work in between: `locate` only works
out the home bucket, and `complete` scans on from it. Nothing here depends on how the buckets were
filled.
-/

namespace Ngram

/-- A record of fixed size that a table can hold. -/
class Entry (α : Type) where
  key : α → UInt64
  /-- What an empty bucket holds. -/
  blank : α
  /-- The size of a record in memory. -/
  bytes : Nat
  key_blank : key blank = 0

/-- How a key is reduced to a bucket. -/
inductive Reducer where
  | divide (divisor : Reciprocal)
  | mask (mask : UInt64)
deriving DecidableEq

namespace Reducer

/-- The reducer for a number of buckets, which has to be a power of two to mask with. -/
def make (buckets : Nat) : BucketMode → Except Error Reducer
  | .divide => .ok (.divide (Reciprocal.ofDivisor buckets.toUInt64))
  | .mask =>
    if isPowerOfTwo buckets then .ok (.mask (buckets.toUInt64 - 1))
    else .error (.model (.maskBuckets buckets))

/-- The home bucket of a key. -/
def reduce (r : Reducer) (key : UInt64) : Nat :=
  match r with
  | divide d => (d.remainder key).toNat
  | mask m => (key &&& m).toNat

/-- The mode that a reducer was made for. -/
def mode : Reducer → BucketMode
  | divide _ => .divide
  | mask _ => .mask

theorem mode_of_make {buckets : Nat} {mode : BucketMode} {r : Reducer}
    (h : make buckets mode = .ok r) : r.mode = mode := by
  cases mode with
  | divide => cases h; rfl
  | mask =>
    rw [make] at h
    split at h
    next => cases h; rfl
    next => cases h

end Reducer

/-- A non-empty array of buckets and the reducer for its size. -/
structure Buckets (α : Type) [Entry α] where
  slots : Array α
  reducer : Reducer
  slots_pos : 0 < slots.size
  slots_lt : slots.size < 2 ^ 64
  reducer_eq : Reducer.make slots.size reducer.mode = .ok reducer

namespace Buckets

variable {α : Type} [Entry α]

/-- The number of buckets. -/
def size (b : Buckets α) : Nat := b.slots.size

/-- How keys are reduced. -/
def mode (b : Buckets α) : BucketMode := b.reducer.mode

/-- The first phase of a search: the home bucket of a key. -/
def locate (b : Buckets α) (key : UInt64) : Nat := b.reducer.reduce key

/-- The bucket behind bucket `i`; the first one follows the last one. -/
def next (b : Buckets α) (i : Nat) : Nat := if i + 1 = b.slots.size then 0 else i + 1

/-- The first of `left` buckets from `i` on that holds `key` or is empty. -/
def scan (b : Buckets α) (key : UInt64) (i : Nat) : Nat → Option Nat
  | 0 => none
  | left + 1 =>
    if h : i < b.slots.size then
      let found := Entry.key b.slots[i]
      if found == key || found == 0 then some i else b.scan key (b.next i) left
    else none

/-- The second phase: the bucket that holds `key`, searched for from bucket `cursor` on. -/
def bucketOf? (b : Buckets α) (key : UInt64) (cursor : Nat) : Option Nat :=
  -- zero would be found in every empty bucket
  if key == 0 then none
  else (b.scan key cursor b.slots.size).filter fun i => (b.slots[i]?.map Entry.key) == some key

/-- The second phase: the entry with `key`, searched for from bucket `cursor` on. -/
def complete (b : Buckets α) (key : UInt64) (cursor : Nat) : Option α :=
  (b.bucketOf? key cursor).bind fun i => b.slots[i]?

/-- Both phases back to back. -/
def find (b : Buckets α) (key : UInt64) : Option α := b.complete key (b.locate key)

/-- The number of buckets from the home of `key` on to where it is. -/
def distance (b : Buckets α) (key : UInt64) : Option Nat :=
  (b.bucketOf? key (b.locate key)).map fun i => (i + b.size - b.locate key) % b.size

/-- The entries that are present, in bucket order. -/
def entries (b : Buckets α) : List α := b.slots.toList.filter fun e => Entry.key e != 0

/-- The memory that the buckets take. -/
def memory (b : Buckets α) : Nat := b.size * Entry.bytes α

theorem scan_lt {b : Buckets α} {key : UInt64} {i left j : Nat} (h : b.scan key i left = some j) :
    j < b.slots.size := by
  induction left generalizing i with
  | zero => cases h
  | succ left ih =>
    rw [scan] at h
    split at h
    next hi =>
      dsimp only at h
      split at h
      next => cases h; exact hi
      next => exact ih h
    next => cases h

end Buckets

end Ngram
