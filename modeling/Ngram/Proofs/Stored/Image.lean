import Ngram.Model.Image
import Ngram.Proofs.Checks
import Ngram.Proofs.Stored.Format

/-!
# The stored form of a model

Records, tables and models are stored part by part, so that the form of each follows from the forms
of its parts. Reading a table or a model ends with checks, and what can be worked out from the
buckets is worked out again. A table or a model that was made in any way has passed these checks,
because its type says so; and the checks leave no choice of what is made up from the parts
(`Table.ofSlots_eq_ok_iff`, `Model.assemble_eq_ok_iff`).

> `Model.ofBytes_eq_ok_iff`: bytes are accepted as a model exactly if they begin with its stored
> form.
> `Model.ofBytes_canonical`: so there is one stored form only; and a strict part of it, from its
> beginning on, is refused.
> `Model.ofBytes_toBytes`: saving and loading loses nothing.
-/

namespace Ngram

open Bytes (Format)

/-! ## Records -/

theorem format_weights : Format Weights.read Weights.toBytes fun _ => True := by
  have hparts := Bytes.format_single.bind (Q := fun _ => True) Weights.stored
    (fun _ _ => trivial) fun stored _ =>
    Bytes.format_single.bind Weights.backoff (fun _ _ => trivial) fun backoff _ =>
    Bytes.format_single.bind Weights.rest (fun _ _ => trivial) fun rest _ =>
    Format.done (.ok (⟨stored, backoff, rest⟩ : Weights)) fun w => by
      cases w
      simp [eq_comm, and_assoc]
  exact hparts.congr (fun w => by simp [Weights.toBytes]) fun _ => Iff.rfl

theorem format_middleEntry : Format MiddleEntry.read MiddleEntry.toBytes fun _ => True := by
  have hparts := Bytes.format_uint64.bind (Q := fun _ => True) MiddleEntry.key
    (fun _ _ => trivial) fun key _ =>
    format_weights.bind MiddleEntry.weights (fun _ _ => trivial) fun weights _ =>
    Bytes.format_uint32.bind MiddleEntry.padding (fun _ _ => trivial) fun padding _ =>
    Format.done (.ok (⟨key, weights, padding⟩ : MiddleEntry)) fun e => by
      cases e
      simp [eq_comm, and_assoc]
  exact hparts.congr (fun e => by simp [MiddleEntry.toBytes]) fun _ => Iff.rfl

theorem format_longestEntry : Format LongestEntry.read LongestEntry.toBytes fun _ => True := by
  have hparts := Bytes.format_uint64.bind (Q := fun _ => True) LongestEntry.key
    (fun _ _ => trivial) fun key _ =>
    Bytes.format_single.bind LongestEntry.prob (fun _ _ => trivial) fun prob _ =>
    Bytes.format_uint32.bind LongestEntry.padding (fun _ _ => trivial) fun padding _ =>
    Format.done (.ok (⟨key, prob, padding⟩ : LongestEntry)) fun e => by
      cases e
      simp [eq_comm, and_assoc]
  exact hparts.congr (fun e => by simp [LongestEntry.toBytes]) fun _ => Iff.rfl

theorem format_vocabulary : Format Vocabulary.read Vocabulary.toBytes fun _ => True := by
  have hparts := Bytes.format_uint32.bind (Q := fun _ => True) Vocabulary.bound
    (fun _ _ => trivial) fun bound _ =>
    Bytes.format_uint32.bind Vocabulary.unknown (fun _ _ => trivial) fun unknown _ =>
    Bytes.format_uint32.bind Vocabulary.beginSentence (fun _ _ => trivial)
      fun beginSentence _ =>
    Bytes.format_uint32.bind Vocabulary.endSentence (fun _ _ => trivial)
      fun endSentence _ =>
    Format.done (.ok (⟨bound, unknown, beginSentence, endSentence⟩ : Vocabulary)) fun v => by
      cases v
      simp [eq_comm, and_assoc]
  exact hparts.congr (fun v => by simp [Vocabulary.toBytes]) fun _ => Iff.rfl

/-! ## Tables -/

/-- The mode with a stored number. -/
def BucketMode.ofTag : Nat → Except Error BucketMode
  | 0 => .ok .divide
  | 1 => .ok .mask
  | tag + 2 => .error (.image (.badMode (tag + 2)))

theorem BucketMode.ofTag_eq_ok_iff {tag : Nat} {mode : BucketMode} :
    ofTag tag = .ok mode ↔ mode.tag = tag := by
  match tag with
  | 0 => cases mode <;> simp [ofTag, BucketMode.tag]
  | 1 => cases mode <;> simp [ofTag, BucketMode.tag]
  | tag + 2 => cases mode <;> simp [ofTag, BucketMode.tag]

theorem format_bucketMode :
    Format BucketMode.read (fun mode => Bytes.ofNat 4 mode.tag) fun _ => True := by
  have hparts := (Bytes.format_nat 4).bind (Q := fun _ => True) BucketMode.tag
    (fun mode _ => by cases mode <;> decide) fun tag _ =>
    Format.done (BucketMode.ofTag tag) fun mode => by
      rw [BucketMode.ofTag_eq_ok_iff]
      simp
  have hread : BucketMode.read = (fun bs => do
      let r ← Bytes.readNat 4 bs
      let mode ← BucketMode.ofTag r.1
      .ok (mode, r.2)) := by
    funext bs
    unfold BucketMode.read
    cases Bytes.readNat 4 bs with
    | error e => rfl
    | ok r =>
      rcases r with ⟨_ | _ | tag, bs⟩ <;> rfl
  rw [hread]
  exact hparts.congr (fun _ => (List.append_nil _).symm) fun _ => Iff.rfl

section Table

variable {α : Type} [Entry α]

/-- The stored form of a table, from that of its entries. -/
theorem format_table {read : Read α} {write : α → Bytes} (h : Format read write fun _ => True) :
    Format (Table.read read) (Table.toBytes write) fun _ => True := by
  have hparts := format_bucketMode.bind (Q := fun _ => True) (fun t : Table α => t.mode)
    (fun _ _ => trivial) fun mode _ =>
    (Bytes.format_array h).bind (fun t : Table α => t.slots)
      (fun t _ => ⟨t.slots_lt, fun _ _ => trivial⟩) fun slots _ =>
    Format.done (Table.ofSlots slots mode) fun t => by
      rw [Table.ofSlots_eq_ok_iff]
      simp
  exact hparts.congr (fun t => by simp [Table.toBytes]) fun _ => Iff.rfl

end Table

/-! ## Models -/

namespace Model

/-- A model from its parts, if they pass their checks. -/
def assemble (vocabulary : Vocabulary) (order : Nat) (unigrams : Array Weights)
    (middle : Array (Table MiddleEntry)) (longest : Table LongestEntry) : Except Error Model := do
  let store ← Store.ofTables order unigrams middle longest
  ofParts vocabulary store

theorem assemble_eq_ok_iff {vocabulary : Vocabulary} {order : Nat} {unigrams : Array Weights}
    {middle : Array (Table MiddleEntry)} {longest : Table LongestEntry} {m : Model} :
    assemble vocabulary order unigrams middle longest = .ok m ↔
      m.vocabulary = vocabulary ∧ m.store.order = order ∧ m.store.unigrams = unigrams ∧
        m.store.middle = middle ∧ m.store.longest = longest := by
  rw [← Store.ofTables_eq_ok_iff]
  unfold assemble
  cases Store.ofTables order unigrams middle longest with
  | error e => simp [bind, Except.bind]
  | ok store =>
    simp only [bind, Except.bind, Except.ok.injEq, eq_comm (a := store)]
    exact ofParts_eq_ok_iff

/-- Reads what stands behind the header, and leaves what stands behind the last table. -/
def read : Read Model := fun bs => do
  let (vocabulary, bs) ← Vocabulary.read bs
  let (order, bs) ← Bytes.readNat 1 bs
  let (unigrams, bs) ← Bytes.readArray Weights.read bs
  let (middle, bs) ← Bytes.readArray (Table.read MiddleEntry.read) bs
  let (longest, bs) ← Table.read LongestEntry.read bs
  let m ← assemble vocabulary order unigrams middle longest
  .ok (m, bs)

/-- The stored form of a model behind the header. -/
theorem format_model :
    Format read (fun m => m.vocabulary.toBytes ++ m.store.toBytes) fun _ => True := by
  have hparts := format_vocabulary.bind (Q := fun _ => True) Model.vocabulary
    (fun _ _ => trivial) fun vocabulary _ =>
    (Bytes.format_nat 1).bind (fun m : Model => m.store.order)
      (fun m _ => Nat.lt_of_le_of_lt m.store.order_le (by decide)) fun order _ =>
    (Bytes.format_array format_weights).bind (fun m : Model => m.store.unigrams)
      (fun m _ => ⟨Nat.lt_trans m.store.unigrams_lt (by decide), fun _ _ => trivial⟩)
      fun unigrams _ =>
    (Bytes.format_array (format_table format_middleEntry)).bind
      (fun m : Model => m.store.middle) (fun m _ => ⟨by
        have hsize := m.store.middle_size
        have horder := m.store.order_le
        omega, fun _ _ => trivial⟩) fun middle _ =>
    (format_table format_longestEntry).bind (fun m : Model => m.store.longest)
      (fun _ _ => trivial) fun longest _ =>
    Format.done (assemble vocabulary order unigrams middle longest) fun m => by
      rw [assemble_eq_ok_iff]
      simp [and_assoc]
  exact hparts.congr (fun m => by simp [Store.toBytes]) fun _ => Iff.rfl

/-- Loading a model forgets what is left behind it. -/
theorem readPayload_eq (bs : Bytes) : readPayload bs = (read bs).map Prod.fst := by
  unfold readPayload read
  rcases Vocabulary.read bs with e | ⟨vocabulary, bs⟩
  · rfl
  simp only [bind, Except.bind]
  rcases Bytes.readNat 1 bs with e | ⟨order, bs⟩
  · rfl
  dsimp only
  rcases Bytes.readArray Weights.read bs with e | ⟨unigrams, bs⟩
  · rfl
  dsimp only
  rcases Bytes.readArray (Table.read MiddleEntry.read) bs with e | ⟨middle, bs⟩
  · rfl
  dsimp only
  rcases Table.read LongestEntry.read bs with e | ⟨longest, bs⟩
  · rfl
  dsimp only
  show assemble vocabulary order unigrams middle longest = _
  cases assemble vocabulary order unigrams middle longest with
  | error e => rfl
  | ok m => rfl

/-- What stands in front of every stored model. -/
def header : Bytes := magic ++ version

theorem length_header : header.length = 10 := by decide

theorem toBytes_eq (m : Model) :
    m.toBytes = header ++ (m.vocabulary.toBytes ++ m.store.toBytes) := by
  simp [toBytes, header]

/-- The header decides about nothing but itself. -/
theorem ofBytes_header (payload : Bytes) : ofBytes (header ++ payload) = readPayload payload := by
  have htake : (header ++ payload).take 8 = magic := by
    rw [header, List.append_assoc]
    exact List.take_left' (by decide)
  have hdrop : (header ++ payload).drop 8 = 1 :: 0 :: payload := by
    rw [header, List.append_assoc]
    exact List.drop_left' (by decide)
  have hlen : ¬ (header ++ payload).length < 10 := by
    rw [List.length_append, length_header]
    omega
  unfold ofBytes
  rw [if_neg hlen, if_neg (not_not_intro htake), hdrop]
  rfl

/-- What is accepted begins with the header. -/
theorem exists_of_ofBytes_eq_ok {bs : Bytes} {m : Model} (h : ofBytes bs = .ok m) :
    ∃ payload, bs = header ++ payload := by
  unfold ofBytes at h
  split at h
  next => cases h
  next =>
    split at h
    next => cases h
    next hmagic =>
      split at h
      next major minor payload hdrop =>
        split at h
        next hversion =>
          have hmagic : bs.take 8 = magic := Decidable.not_not.1 hmagic
          refine ⟨payload, ?_⟩
          rw [header, ← hversion, ← hmagic, List.append_assoc]
          exact (List.take_append_drop 8 bs).symm.trans (by rw [hdrop]; rfl)
        next => cases h
      next => cases h

/-- **Bytes are accepted as a model exactly if they begin with its stored form.** -/
theorem ofBytes_eq_ok_iff {bs : Bytes} {m : Model} : ofBytes bs = .ok m ↔ m.toBytes <+: bs := by
  constructor
  · intro h
    obtain ⟨payload, rfl⟩ := exists_of_ofBytes_eq_ok h
    rw [ofBytes_header, readPayload_eq, map_eq_ok_iff] at h
    obtain ⟨⟨m, rest⟩, hread, rfl⟩ := h
    obtain ⟨-, rfl⟩ := format_model.write_of_read hread
    exact ⟨rest, by rw [toBytes_eq, List.append_assoc]⟩
  · intro h
    obtain ⟨rest, rfl⟩ := h
    rw [toBytes_eq, List.append_assoc, ofBytes_header, readPayload_eq,
      format_model.read_write trivial]
    rfl

/-- A stored model that was cut is refused: without its whole header as too short, and behind it
because bytes are missing. -/
theorem ofBytes_of_cut {m : Model} {cut : Bytes} (hcut : cut <+: m.toBytes)
    (hne : cut ≠ m.toBytes) :
    ofBytes cut =
      .error (if cut.length < 10 then .model .imageTooShort else .image .truncated) := by
  split
  next hshort => rw [ofBytes, if_pos hshort]
  next hlong =>
    rw [toBytes_eq] at hcut hne
    obtain ⟨payload, rfl⟩ := List.prefix_of_prefix_length_le (List.prefix_append _ _) hcut
      (by rw [length_header]; omega)
    rw [List.prefix_append_right_inj] at hcut
    rw [ofBytes_header, readPayload_eq,
      format_model.read_of_cut trivial hcut (fun heq => hne (by rw [heq]))]
    rfl

/-- **A model has one stored form, which ends by itself.** What is accepted as a model begins with
its stored form, bit for bit: padding, empty buckets and numbers that are none included. Whatever
follows does not matter, and a strict part of the stored form, from its beginning on, is refused. -/
theorem ofBytes_canonical {bs : Bytes} {m : Model} (h : ofBytes bs = .ok m) :
    m.toBytes <+: bs ∧ (∀ more, ofBytes (m.toBytes ++ more) = .ok m) ∧
      ∀ cut, cut <+: m.toBytes → cut ≠ m.toBytes →
        ofBytes cut =
          .error (if cut.length < 10 then .model .imageTooShort else .image .truncated) :=
  ⟨ofBytes_eq_ok_iff.1 h, fun _ => ofBytes_eq_ok_iff.2 (List.prefix_append _ _),
    fun _ => ofBytes_of_cut⟩

/-- A model with padding, with something else than blanks in its empty buckets, and with backoffs
and probabilities that are no numbers. -/
def paddedModel : Model :=
  { vocabulary := { bound := 4 }
    store :=
      { order := 3
        unigrams := #[⟨⟨0x40000000⟩, .zero, ⟨0xc0000000⟩⟩, ⟨⟨0xc2c60000⟩, ⟨0xff800001⟩, .zero⟩,
          ⟨⟨0xbf800000⟩, .negZero, ⟨0xbf800000⟩⟩, ⟨⟨0xbf800000⟩, .zero, ⟨0xbf800000⟩⟩]
        middle := #[
          { slots := #[⟨0, ⟨⟨0x3f800000⟩, .zero, .zero⟩, 9⟩, ⟨7, ⟨⟨0xbf000000⟩, .zero, .zero⟩, 1⟩]
            reducer := .mask 1, slots_pos := by decide, slots_lt := by decide, reducer_eq := rfl
            count := 1, count_eq := by decide, count_lt := by decide }]
        longest :=
          { slots := #[⟨0, ⟨0x7fc00001⟩, 5⟩], reducer := .divide (.ofDivisor 1)
            slots_pos := by decide, slots_lt := by decide, reducer_eq := rfl, count := 0
            count_eq := by decide, count_lt := by decide }
        order_pos := by decide, order_le := by decide, middle_size := rfl
        unigrams_pos := by decide, unigrams_lt := by decide }
    vocabulary_valid := ⟨by decide, by decide, by decide, by decide⟩
    bound_eq := rfl }

/-- Bytes behind it do not matter, and it can be cut in its header and inside a table. -/
theorem ofBytes_canonical_padded :
    let bs := paddedModel.toBytes ++ [1, 2]
    ofBytes bs = .ok paddedModel ∧ paddedModel.toBytes <+: bs ∧
      ofBytes (paddedModel.toBytes ++ [0]) = .ok paddedModel ∧
      ofBytes (paddedModel.toBytes.take 9) = .error (.model .imageTooShort) ∧
      ofBytes (paddedModel.toBytes.take 100) = .error (.image .truncated) := by
  have hread : ofBytes (paddedModel.toBytes ++ [1, 2]) = .ok paddedModel := by cbv
  obtain ⟨hfront, hmore, hcut⟩ := ofBytes_canonical hread
  exact ⟨hread, hfront, hmore _, hcut _ (List.take_prefix _ _) (by decide),
    hcut _ (List.take_prefix _ _) (by decide)⟩

/-- **Saving and loading loses nothing.** Loading what was saved gives the same model: vocabulary,
order, weights, and of each table the mode, the buckets bit for bit, the count and the reducer. So
its states and its scores are the same as well. This holds of every model, however it was made. -/
theorem ofBytes_toBytes (m : Model) : ofBytes m.toBytes = .ok m :=
  ofBytes_eq_ok_iff.2 (List.prefix_refl _)

end Model

end Ngram
