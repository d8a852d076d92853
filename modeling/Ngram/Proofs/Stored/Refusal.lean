import Ngram.Proofs.Model.Faults
import Ngram.Proofs.Stored.Image

/-!
# What stored models are refused for

Bytes that are no stored model are refused for what is wrong with them: their header, a table that
ends too early or cannot be a table, or parts that do not belong together. Nothing else can go
wrong. The number of buckets of a table is read from eight bytes, so that it can be counted, and the
two bytes of the version are there whenever they are looked at.

> `OnlyImageFaults`: a reader refuses bytes for faults of what is stored only; one lemma for each
> way in which readers are put together.
> `Model.refusal_of_ofBytes`: why bytes are refused as a model.
-/

namespace Ngram

/-- Faults of what is stored in a table. -/
def Error.IsImageFault (e : Error) : Prop := ∃ fault, e = .image fault

namespace Bytes

variable {α β : Type}

/-- A reader refuses bytes for nothing but faults of what is stored. -/
def OnlyImageFaults (read : Read α) : Prop := ∀ bs e, read bs = .error e → e.IsImageFault

namespace OnlyImageFaults

/-- One reader behind the other, where the second may rely on what the first one reads. -/
theorem bind {P : α → Prop} {read : Read α} {next : α → Read β} (h : OnlyImageFaults read)
    (hread : ∀ {bs : Bytes} {a : α} {rest : Bytes}, read bs = .ok (a, rest) → P a)
    (hnext : ∀ a, P a → OnlyImageFaults (next a)) :
    OnlyImageFaults (fun bs => do let (a, bs) ← read bs; next a bs) := by
  intro bs e he
  rcases bind_eq_error_iff.1 he with hfirst | ⟨⟨a, rest⟩, hfirst, hsecond⟩
  · exact h bs e hfirst
  · exact hnext a (hread hfirst) rest e hsecond

/-- A record that was read is not refused any more. -/
theorem record (a : α) : OnlyImageFaults (fun bs => .ok (a, bs)) := by
  intro bs e he
  cases he

/-- A check of what was read. -/
theorem check {x : Except Error α} (h : ∀ e, x = .error e → e.IsImageFault) :
    OnlyImageFaults (fun bs => do let a ← x; .ok (a, bs)) := by
  intro bs e he
  rcases bind_eq_error_iff.1 he with hx | ⟨a, -, hdone⟩
  · exact h e hx
  · cases hdone

theorem map {read : Read α} {f : α → β} (h : OnlyImageFaults read) :
    OnlyImageFaults (Read.map f read) := by
  intro bs e he
  unfold Read.map at he
  split at he
  next => cases he
  next hfirst =>
    cases he
    exact h _ _ hfirst

theorem nat (width : Nat) : OnlyImageFaults (readNat width) := by
  intro bs e he
  unfold readNat at he
  split at he
  next => cases he
  next =>
    cases he
    exact ⟨_, rfl⟩

theorem uint32 : OnlyImageFaults readUInt32 := (nat 4).map

theorem uint64 : OnlyImageFaults readUInt64 := (nat 8).map

theorem single : OnlyImageFaults readSingle := uint32.map

theorem into {read : Read α} (h : OnlyImageFaults read) (n : Nat) (done : Array α) :
    OnlyImageFaults (readInto read n done) := by
  induction n generalizing done with
  | zero =>
    intro bs e he
    cases he
  | succ n ih =>
    intro bs e he
    rw [readInto] at he
    split at he
    next => exact ih _ _ _ he
    next hfirst =>
      cases he
      exact h _ _ hfirst

theorem array {read : Read α} (h : OnlyImageFaults read) : OnlyImageFaults (readArray read) := by
  intro bs e he
  unfold readArray at he
  split at he
  next => exact h.into _ _ _ _ he
  next hcount =>
    cases he
    exact nat 8 _ _ hcount

end OnlyImageFaults

end Bytes

open Bytes (OnlyImageFaults)

/-! ## Records and tables -/

theorem onlyImageFaults_weights : OnlyImageFaults Weights.read :=
  OnlyImageFaults.single.bind (fun _ => trivial) fun _ _ =>
    OnlyImageFaults.single.bind (fun _ => trivial) fun _ _ =>
    OnlyImageFaults.single.bind (fun _ => trivial) fun _ _ => .record _

theorem onlyImageFaults_middleEntry : OnlyImageFaults MiddleEntry.read :=
  OnlyImageFaults.uint64.bind (fun _ => trivial) fun _ _ =>
    onlyImageFaults_weights.bind (fun _ => trivial) fun _ _ =>
    OnlyImageFaults.uint32.bind (fun _ => trivial) fun _ _ => .record _

theorem onlyImageFaults_longestEntry : OnlyImageFaults LongestEntry.read :=
  OnlyImageFaults.uint64.bind (fun _ => trivial) fun _ _ =>
    OnlyImageFaults.single.bind (fun _ => trivial) fun _ _ =>
    OnlyImageFaults.uint32.bind (fun _ => trivial) fun _ _ => .record _

theorem onlyImageFaults_vocabulary : OnlyImageFaults Vocabulary.read :=
  OnlyImageFaults.uint32.bind (fun _ => trivial) fun _ _ =>
    OnlyImageFaults.uint32.bind (fun _ => trivial) fun _ _ =>
    OnlyImageFaults.uint32.bind (fun _ => trivial) fun _ _ =>
    OnlyImageFaults.uint32.bind (fun _ => trivial) fun _ _ => .record _

theorem onlyImageFaults_bucketMode : OnlyImageFaults BucketMode.read := by
  intro bs e he
  unfold BucketMode.read at he
  rcases bind_eq_error_iff.1 he with hfirst | ⟨⟨tag, rest⟩, -, htag⟩
  · exact OnlyImageFaults.nat 4 _ _ hfirst
  · rcases tag with _ | _ | tag
    · cases htag
    · cases htag
    · cases htag
      exact ⟨_, rfl⟩

section Table

variable {α : Type} [Entry α]

/-- Buckets that can be counted are refused for a fault of the table only. -/
theorem isImageFault_of_ofSlots (slots : Array α) (mode : BucketMode)
    (hcount : slots.size < 2 ^ 64) (e : Error) (he : Table.ofSlots slots mode = .error e) :
    e.IsImageFault := by
  unfold Table.ofSlots at he
  split at he
  next =>
    cases he
    exact ⟨_, rfl⟩
  next =>
    split at he
    next =>
      cases he
      exact ⟨_, rfl⟩
    next =>
      split at he
      next => cases he
      next =>
        cases he
        exact ⟨_, rfl⟩

theorem onlyImageFaults_table {read : Read α} {write : α → Bytes}
    (hformat : Bytes.Format read write fun _ => True) (h : OnlyImageFaults read) :
    OnlyImageFaults (Table.read read) :=
  onlyImageFaults_bucketMode.bind (fun _ => trivial) fun mode _ =>
    h.array.bind (fun hread => ((Bytes.format_array hformat).write_of_read hread).1.1)
      fun slots hcount => .check (isImageFault_of_ofSlots slots mode hcount)

end Table

/-! ## Models -/

/-- Faults of the parts of a stored model: those of a table, and those of parts that do not belong
together. -/
inductive Error.IsPartFault : Error → Prop where
  | image (fault : ImageFault) : IsPartFault (.image fault)
  | model {fault : ModelFault} (h : fault ≠ .imageTooShort) : IsPartFault (.model fault)

theorem Error.IsImageFault.isPartFault {e : Error} (h : e.IsImageFault) : e.IsPartFault := by
  obtain ⟨fault, rfl⟩ := h
  exact .image fault

theorem Error.IsModelFault.isPartFault {e : Error} (h : e.IsModelFault) : e.IsPartFault := by
  obtain ⟨hfault⟩ := h
  exact .model hfault

namespace Model

/-- What stands behind the header is refused for a fault of its parts. -/
theorem isPartFault_of_readPayload {bs : Bytes} {e : Error} (he : readPayload bs = .error e) :
    e.IsPartFault := by
  unfold readPayload at he
  rcases bind_eq_error_iff.1 he with he | ⟨⟨vocabulary, bs⟩, -, he⟩
  · exact (onlyImageFaults_vocabulary _ _ he).isPartFault
  rcases bind_eq_error_iff.1 he with he | ⟨⟨order, bs⟩, -, he⟩
  · exact (OnlyImageFaults.nat 1 _ _ he).isPartFault
  rcases bind_eq_error_iff.1 he with he | ⟨⟨unigrams, bs⟩, -, he⟩
  · exact (onlyImageFaults_weights.array _ _ he).isPartFault
  rcases bind_eq_error_iff.1 he with he | ⟨⟨middle, bs⟩, -, he⟩
  · have htables := onlyImageFaults_table format_middleEntry onlyImageFaults_middleEntry
    exact (htables.array _ _ he).isPartFault
  rcases bind_eq_error_iff.1 he with he | ⟨⟨longest, rest⟩, -, he⟩
  · have htable := onlyImageFaults_table format_longestEntry onlyImageFaults_longestEntry
    exact (htable _ _ he).isPartFault
  rcases bind_eq_error_iff.1 he with he | ⟨store, -, he⟩
  · exact (Store.isModelFault_of_ofTables he).isPartFault
  · exact (isModelFault_of_ofParts he).isPartFault

/-- Why bytes are refused as a model: for too few of them, for their header, or for their parts. -/
inductive Refusal (bs : Bytes) : Error → Prop where
  | short (h : bs.length < 10) : Refusal bs (.model .imageTooShort)
  | magic (hlen : 10 ≤ bs.length) (h : bs.take 8 ≠ Ngram.magic) : Refusal bs .badMagic
  | version {major minor : UInt8} (hmajor : bs[8]? = some major) (hminor : bs[9]? = some minor)
      (h : [major, minor] ≠ Ngram.version) : Refusal bs (.badVersion major minor)
  | parts {e : Error} (hlen : 10 ≤ bs.length) (h : e.IsPartFault) : Refusal bs e

/-- **Bytes are a stored model or are refused for what is wrong with them.** No other error can come
about, whatever the bytes are. -/
theorem refusal_of_ofBytes {bs : Bytes} {e : Error} (he : ofBytes bs = .error e) :
    Refusal bs e := by
  unfold ofBytes at he
  split at he
  next hshort =>
    cases he
    exact .short hshort
  next hlong =>
    have hlen : 10 ≤ bs.length := Nat.le_of_not_lt hlong
    split at he
    next hmagic =>
      cases he
      exact .magic hlen hmagic
    next =>
      split at he
      next major minor payload hdrop =>
        split at he
        next => exact .parts hlen (isPartFault_of_readPayload he)
        next hversion =>
          cases he
          have hmajor : (bs.drop 8)[0]? = some major := by rw [hdrop]; rfl
          have hminor : (bs.drop 8)[1]? = some minor := by rw [hdrop]; rfl
          rw [List.getElem?_drop] at hmajor hminor
          exact .version hmajor hminor hversion
      next hdrop =>
        -- the two bytes of the version are there
        have hmajor : bs.drop 8 = bs[8] :: bs.drop 9 := List.drop_eq_getElem_cons (by omega)
        have hminor : bs.drop 9 = bs[9] :: bs.drop 10 := List.drop_eq_getElem_cons (by omega)
        exact absurd (hminor ▸ hmajor) (hdrop _ _ _)

end Model

end Ngram
