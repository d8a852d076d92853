import Ngram.Bytes
import Ngram.Hash.Table

/-!
# Stored probe tables

A table is stored as its mode in four bytes and the list of its buckets, empty ones included. What
can be worked out from these, the reducer and the number of entries, is not stored but worked out
again, after the whole table has been read.
-/

namespace Ngram

variable {α : Type} [Entry α]

/-- The stored number of a mode. -/
def BucketMode.tag : BucketMode → Nat
  | .divide => 0
  | .mask => 1

def BucketMode.read : Read BucketMode := fun bs => do
  match ← Bytes.readNat 4 bs with
  | (0, bs) => .ok (.divide, bs)
  | (1, bs) => .ok (.mask, bs)
  | (tag, _) => .error (.image (.badMode tag))

/-- The stored form of a table. -/
def Table.toBytes (write : α → Bytes) (t : Table α) : Bytes :=
  Bytes.ofNat 4 t.mode.tag ++ Bytes.ofArray write t.slots

/-- Reads a table and checks it. -/
def Table.read (read : Read α) : Read (Table α) := fun bs => do
  let (mode, bs) ← BucketMode.read bs
  let (slots, bs) ← Bytes.readArray read bs
  let table ← Table.ofSlots slots mode
  .ok (table, bs)

end Ngram
