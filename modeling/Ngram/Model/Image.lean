import Ngram.Model.Basic

/-!
# Stored models

A stored model starts with eight letters and two version numbers. Then come the vocabulary, the
order and the tables, each in its stored form and nothing between them. Whatever stands behind the
last table is ignored.
-/

namespace Ngram

/-- The letters that a stored model starts with. -/
def magic : Bytes := "ALICELMB".toList.map fun c => c.toNat.toUInt8

/-- The version of the stored form. -/
def version : Bytes := [1, 0]

def Vocabulary.toBytes (v : Vocabulary) : Bytes :=
  Bytes.ofUInt32 v.bound ++ Bytes.ofUInt32 v.unknown ++ Bytes.ofUInt32 v.beginSentence ++
    Bytes.ofUInt32 v.endSentence

def Vocabulary.read : Read Vocabulary := fun bs => do
  let (bound, bs) ← Bytes.readUInt32 bs
  let (unknown, bs) ← Bytes.readUInt32 bs
  let (beginSentence, bs) ← Bytes.readUInt32 bs
  let (endSentence, bs) ← Bytes.readUInt32 bs
  .ok (⟨bound, unknown, beginSentence, endSentence⟩, bs)

def Store.toBytes (s : Store) : Bytes :=
  Bytes.ofNat 1 s.order ++ Bytes.ofArray Weights.toBytes s.unigrams ++
    Bytes.ofArray (Table.toBytes MiddleEntry.toBytes) s.middle ++
    s.longest.toBytes LongestEntry.toBytes

namespace Model

/-- The stored form of a model. -/
def toBytes (m : Model) : Bytes :=
  magic ++ version ++ m.vocabulary.toBytes ++ m.store.toBytes

/-- Reads what stands behind the header. The tables are read and checked one by one before the
order and the number of tables are. -/
def readPayload (bs : Bytes) : Except Error Model := do
  let (vocabulary, bs) ← Vocabulary.read bs
  let (order, bs) ← Bytes.readNat 1 bs
  let (unigrams, bs) ← Bytes.readArray Weights.read bs
  let (middle, bs) ← Bytes.readArray (Table.read MiddleEntry.read) bs
  let (longest, _) ← Table.read LongestEntry.read bs
  let store ← Store.ofTables order unigrams middle longest
  Model.ofParts vocabulary store

/-- Reads a stored model. -/
def ofBytes (bs : Bytes) : Except Error Model :=
  if bs.length < 10 then .error (.model .imageTooShort)
  else if bs.take 8 ≠ magic then .error .badMagic
  else match bs.drop 8 with
    | major :: minor :: payload =>
      if [major, minor] = version then readPayload payload else .error (.badVersion major minor)
    | _ => .error (.model .imageTooShort)

/-- Reads the model that a file holds, if it can be read. -/
def ofFile : Option Bytes → Except Error Model
  | none => .error .unreadable
  | some bs => ofBytes bs

end Model

end Ngram
