import Ngram.Bytes
import Ngram.Hash.Buckets

/-!
# Weights of n-grams

An n-gram carries the logarithm of its probability, the backoff that is charged when a longer match
ends at it, and a rest cost. Two facts ride in the bits.

* A logarithm of a probability is never positive, so the sign bit of a stored probability is free:
  clear, it says that no longer n-gram ends in this one, so that a match need not be extended to
  the left (`independentLeft`). Reading the probability puts the sign back.
* A backoff of exactly `-0.0` says that no longer n-gram begins with this one, so that a state that
  ends in it can be shortened (`hasExtension`).
-/

namespace Ngram

/-- A state that ends in an n-gram with this backoff can still be extended. -/
def hasExtension (backoff : Single) : Bool := backoff != .negZero

/-- The stored weights of an n-gram below the highest order. -/
structure Weights where
  /-- The probability, with a flag in place of its sign. -/
  stored : Single
  backoff : Single
  rest : Single
deriving DecidableEq, Inhabited

namespace Weights

/-- Puts weights and flag together. -/
def pack (prob backoff rest : Single) (independentLeft : Bool) : Weights :=
  ⟨if independentLeft then prob.clearSign else prob.setSign, backoff, rest⟩

/-- The probability. -/
def prob (w : Weights) : Single := w.stored.setSign

/-- No longer n-gram ends in this one. -/
def independentLeft (w : Weights) : Bool := !w.stored.isNegative

def toBytes (w : Weights) : Bytes :=
  Bytes.ofSingle w.stored ++ Bytes.ofSingle w.backoff ++ Bytes.ofSingle w.rest

def read : Read Weights := fun bs => do
  let (stored, bs) ← Bytes.readSingle bs
  let (backoff, bs) ← Bytes.readSingle bs
  let (rest, bs) ← Bytes.readSingle bs
  .ok (⟨stored, backoff, rest⟩, bs)

end Weights

/-- The record of an n-gram between the unigrams and the highest order. -/
structure MiddleEntry where
  key : UInt64
  weights : Weights
  /-- Fills the record up; kept as it was read. -/
  padding : UInt32 := 0
deriving DecidableEq, Inhabited

instance : Entry MiddleEntry where
  key := MiddleEntry.key
  blank := ⟨0, ⟨.zero, .zero, .zero⟩, 0⟩
  bytes := 24
  key_blank := rfl

def MiddleEntry.toBytes (e : MiddleEntry) : Bytes :=
  Bytes.ofUInt64 e.key ++ e.weights.toBytes ++ Bytes.ofUInt32 e.padding

def MiddleEntry.read : Read MiddleEntry := fun bs => do
  let (key, bs) ← Bytes.readUInt64 bs
  let (weights, bs) ← Weights.read bs
  let (padding, bs) ← Bytes.readUInt32 bs
  .ok (⟨key, weights, padding⟩, bs)

/-- The record of an n-gram of the highest order, which is never backed off from. -/
structure LongestEntry where
  key : UInt64
  prob : Single
  /-- Fills the record up; kept as it was read. -/
  padding : UInt32 := 0
deriving DecidableEq, Inhabited

instance : Entry LongestEntry where
  key := LongestEntry.key
  blank := ⟨0, .zero, 0⟩
  bytes := 16
  key_blank := rfl

def LongestEntry.toBytes (e : LongestEntry) : Bytes :=
  Bytes.ofUInt64 e.key ++ Bytes.ofSingle e.prob ++ Bytes.ofUInt32 e.padding

def LongestEntry.read : Read LongestEntry := fun bs => do
  let (key, bs) ← Bytes.readUInt64 bs
  let (prob, bs) ← Bytes.readSingle bs
  let (padding, bs) ← Bytes.readUInt32 bs
  .ok (⟨key, prob, padding⟩, bs)

/-- A record of a key and a number. -/
structure KeyValue where
  key : UInt64
  value : UInt64
deriving DecidableEq, Inhabited

instance : Entry KeyValue where
  key := KeyValue.key
  blank := ⟨0, 0⟩
  bytes := 16
  key_blank := rfl

def KeyValue.toBytes (e : KeyValue) : Bytes := Bytes.ofUInt64 e.key ++ Bytes.ofUInt64 e.value

def KeyValue.read : Read KeyValue := fun bs => do
  let (key, bs) ← Bytes.readUInt64 bs
  let (value, bs) ← Bytes.readUInt64 bs
  .ok (⟨key, value⟩, bs)

end Ngram
