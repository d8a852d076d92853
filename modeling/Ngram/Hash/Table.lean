import Ngram.Hash.Buckets

/-!
# Probe tables

A table is an array of buckets of which at least one is empty, so that every search ends, together
with the number of its entries. Tables are filled once: entries are added and never removed.

A new entry goes to the first empty bucket from its home on. Nothing is added, and the table stays
as it was, when the key is zero, when only one bucket would be left empty, or when the key is there
already; the first of these that applies is reported.
-/

namespace Ngram

variable {α : Type} [Entry α]

/-- An entry that stands for a present key. -/
def isPresent (e : α) : Bool := Entry.key e != 0

/-- Buckets with a count of their entries, and at least one of them empty. -/
structure Table (α : Type) [Entry α] extends Buckets α where
  count : Nat
  count_eq : count = slots.countP isPresent
  count_lt : count < slots.size

namespace Table

/-- The buckets needed for some entries at a number of buckets per entry, rounded up; always more
buckets than entries. -/
def bucketsFor (entries : Nat) (multiplier : Single) : Nat :=
  let scaled := Double.ofValue (entries.toUInt64.toFloat * multiplier.toDouble.value)
  max scaled.ceilCount (entries + 1)

theorem lt_bucketsFor (entries : Nat) (multiplier : Single) :
    entries < bucketsFor entries multiplier :=
  Nat.lt_of_lt_of_le (Nat.lt_succ_self _) (Nat.le_max_right _ _)

/-- The same number, if it can be counted in 64 bits. -/
def bucketsFor? (entries : Nat) (multiplier : Single) : Except Error Nat :=
  let buckets := bucketsFor entries multiplier
  if buckets < 2 ^ 64 then .ok buckets else .error .outOfRange

/-- An empty table with a given number of buckets. -/
def withBuckets (buckets : Nat) (mode : BucketMode) : Except Error (Table α) :=
  if hz : buckets = 0 then .error (.model .noBuckets)
  else if hm : buckets < 2 ^ 64 ∧ buckets * Entry.bytes α ≤ maxBytes then
    match h : Reducer.make buckets mode with
    | .error e => .error e
    | .ok reducer => .ok
      { slots := Array.replicate buckets Entry.blank
        reducer
        slots_pos := by rw [Array.size_replicate]; omega
        slots_lt := by rw [Array.size_replicate]; exact hm.1
        reducer_eq := by rw [Array.size_replicate, Reducer.mode_of_make h]; exact h
        count := 0
        count_eq := by simp [Array.countP_replicate, isPresent, Entry.key_blank]
        count_lt := by rw [Array.size_replicate]; omega }
  else .error .outOfRange

/-- An empty table for some entries. -/
def forEntries (entries : Nat) (settings : TableSettings) : Except Error (Table α) := do
  settings.validate
  let buckets ← bucketsFor? entries settings.multiplier
  let buckets := match settings.mode with
    | .divide => buckets
    | .mask => nextPowerOfTwo buckets
  withBuckets buckets settings.mode

/-- A table from the buckets that a file holds; its entries are counted anew. -/
def ofSlots (slots : Array α) (mode : BucketMode) : Except Error (Table α) :=
  if hz : slots.size = 0 then .error (.image .noBuckets)
  else match h : Reducer.make slots.size mode with
  | .error _ => .error (.image (.maskBuckets slots.size))
  | .ok reducer =>
    if hc : slots.countP isPresent < slots.size then
      if hl : slots.size < 2 ^ 64 then .ok
        { slots
          reducer
          slots_pos := by omega
          slots_lt := hl
          reducer_eq := by rw [Reducer.mode_of_make h]; exact h
          count := slots.countP isPresent
          count_eq := rfl
          count_lt := hc }
      else .error .outOfRange
    else .error (.image .noEmptyBucket)

/-- A table is made up again from its mode and its buckets. -/
theorem ofSlots_eq_ok_iff {slots : Array α} {mode : BucketMode} {t : Table α} :
    ofSlots slots mode = .ok t ↔ t.mode = mode ∧ t.slots = slots := by
  constructor
  · intro h
    unfold ofSlots at h
    split at h
    next => cases h
    next =>
      split at h
      next => cases h
      next reducer hmake =>
        split at h
        next =>
          split at h
          next =>
            cases h
            exact ⟨Reducer.mode_of_make hmake, rfl⟩
          next => cases h
        next => cases h
  · intro h
    obtain ⟨rfl, rfl⟩ := h
    obtain ⟨⟨slots, reducer, hpos, hlt, hreducer⟩, count, hcount, hroom⟩ := t
    unfold ofSlots
    simp only [Buckets.mode]
    rw [dif_neg (Nat.ne_of_gt hpos)]
    split
    next hmake =>
      rw [hreducer] at hmake
      cases hmake
    next reducer' hmake =>
      rw [hreducer] at hmake
      cases hmake
      subst hcount
      rw [dif_pos hroom, dif_pos hlt]

/-- Puts an entry into an empty bucket. -/
def place (t : Table α) (e : α) (i : Nat) (hi : i < t.slots.size)
    (empty : isPresent t.slots[i] = false) (present : isPresent e = true)
    (room : t.count + 1 < t.slots.size) : Table α :=
  let { slots, reducer, slots_pos, slots_lt, reducer_eq, count, count_eq, count_lt := _ } := t
  { slots := slots.set i e hi
    reducer
    slots_pos := by rw [Array.size_set]; exact slots_pos
    slots_lt := by rw [Array.size_set]; exact slots_lt
    reducer_eq := by rw [Array.size_set]; exact reducer_eq
    count := count + 1
    count_eq := by rw [Array.countP_set, count_eq]; simp_all
    count_lt := by rw [Array.size_set]; exact room }

/-- Adds an entry, or says why it is not added. -/
def insert (t : Table α) (e : α) : Except Error Unit × Table α :=
  if hk : Entry.key e = 0 then (.error .reservedKey, t)
  else if room : t.count + 1 < t.slots.size then
    match hs : t.scan (Entry.key e) (t.locate (Entry.key e)) t.slots.size with
    | none => (.error .outOfRange, t)
    | some i =>
      have hi := Buckets.scan_lt hs
      if empty : isPresent t.slots[i] = false then
        (.ok (), t.place e i hi empty (by simp [isPresent, hk]) room)
      else (.error (.duplicateKey (Entry.key e)), t)
  else (.error (.tableFull t.slots.size), t)

/-- Adds entries one after another, up to the first that is refused. -/
def insertAll (t : Table α) : List α → Except Error (Table α)
  | [] => .ok t
  | e :: es =>
    match t.insert e with
    | (.ok (), t) => t.insertAll es
    | (.error err, _) => .error err

/-- The part of the buckets that is taken. -/
def load (t : Table α) : Double := .ratio t.count t.size

end Table

end Ngram
