import Mathlib.Data.List.Dedup
import Ngram.Proofs.Hash.Filling
import Ngram.Proofs.Workload.Draws
import Ngram.Workload.TableTrial

/-!
# What a trial finds

A query is completed some queries after it was located, by way of a queue that fills, slides and is
emptied in the end. The table does not change meanwhile, and a query keeps its own home bucket, so
that nothing of this can be seen (`pump_eq`): the queries are answered one after another, each at
once. What they are answered with does not depend on the table either. It holds each key under the
number that the key was drawn with first, and this can be said of the keys alone:

> `firstNumbers`: the different keys with their first numbers, and `insertKeys_eq`, that a table
> with room for all keys comes to hold them.
> `foldl_answer`: what the queries find in such a table.
> `measure_eq`: a trial, in either mode and with a queue that can be held, without table or queue.
> `planWith_eq_ok_iff`, `run_eq_ok_iff`: which trials can be drawn, and which ones carried out.
> `run_exact`: what a whole trial finds, and when it does.
-/

namespace Ngram

namespace Table

variable {α : Type} [Entry α]

theorem mode_insert (t : Table α) (e : α) : (t.insert e).2.mode = t.mode := by
  rcases t.insert_cases e with ⟨-, heq⟩ | ⟨-, -, heq⟩ | ⟨-, -, -, -, -, heq⟩ |
    ⟨i, hi, empty, present, room, -, -, heq⟩
  · rw [heq]
  · rw [heq]
  · rw [heq]
  · rw [heq]
    rfl

theorem mode_withBuckets {buckets : Nat} {mode : BucketMode} {t : Table α}
    (h : withBuckets buckets mode = .ok t) : t.mode = mode := by
  unfold withBuckets at h
  split at h
  next => cases h
  next =>
    split at h
    next =>
      split at h
      next => cases h
      next hmake =>
        cases h
        exact Reducer.mode_of_make hmake
    next => cases h

end Table

namespace TableTrial

/-! ## The queue -/

/-- Completes a query as soon as it is located. -/
def answer (t : Table KeyValue) (f : Found) (key : UInt64) : Found :=
  finish t f (key, t.locate key)

/-- Every query in a queue is with its own home bucket. -/
def Located (t : Table KeyValue) (queue : Queue InFlight) : Prop :=
  ∀ q ∈ queue.toList, q.2 = t.locate q.1

section Queue

variable {t : Table KeyValue} {depth : Nat} {queue queue' : Queue InFlight} {f f' : Found}

/-- Emptying a queue answers its queries in order. -/
theorem foldl_finish (h : Located t queue) (f : Found) :
    queue.toList.foldl (finish t) f = (queue.toList.map Prod.fst).foldl (answer t) f := by
  rw [List.foldl_map]
  refine List.foldl_ext _ _ f ?_
  intro f q hq
  rw [answer, ← h q hq]

/-- A query comes to the end of the queue with its home bucket. -/
theorem Located.push (h : Located t queue) (key : UInt64) :
    Located t (queue.push (key, t.locate key)) := by
  intro q hq
  rw [Queue.toList_push, List.mem_append, List.mem_singleton] at hq
  rcases hq with hq | rfl
  · exact h q hq
  · rfl

/-- Making room leaves the queries in flight in their order, except for the first one if that is
completed. -/
theorem makeRoom_eq (h : Located t queue) (hroom : makeRoom t depth queue f = (queue', f')) :
    Located t queue' ∧ (queue'.toList.map Prod.fst).foldl (answer t) f' =
      (queue.toList.map Prod.fst).foldl (answer t) f := by
  unfold makeRoom at hroom
  split at hroom
  next =>
    split at hroom
    next q rest hpop =>
      cases hroom
      have hlist := Queue.toList_of_pop? hpop
      rw [Located, hlist, List.forall_mem_cons] at h
      refine ⟨h.2, ?_⟩
      rw [hlist, List.map_cons, List.foldl_cons, answer, ← h.1]
    next =>
      cases hroom
      exact ⟨h, rfl⟩
  next =>
    cases hroom
    exact ⟨h, rfl⟩

/-- **The queue changes no result.** Queries that are sent through it are answered one after
another, behind those that are in it already. The induction is on the queries. -/
theorem pump_eq (h : Located t queue) (keys : List UInt64) :
    pump t depth queue f keys = (queue.toList.map Prod.fst ++ keys).foldl (answer t) f := by
  induction keys generalizing queue f with
  | nil => rw [pump, foldl_finish h, List.append_nil]
  | cons key keys ih =>
    obtain ⟨hlocated, hfound⟩ := makeRoom_eq h (Prod.mk.eta (p := makeRoom t depth queue f)).symm
    rw [pump]
    dsimp only
    rw [ih (hlocated.push key), Queue.toList_push, List.map_append, List.foldl_append,
      List.foldl_append, hfound, List.foldl_append, List.foldl_cons]
    rfl

end Queue

/-! ## The table -/

/-- The different keys, each under the number that it was drawn with first. -/
def firstNumbers (keys : List UInt64) : List KeyValue :=
  keys.dedup.map fun key => ⟨key, (keys.idxOf key).toUInt64⟩

theorem keys_firstNumbers (keys : List UInt64) :
    (firstNumbers keys).map Entry.key = keys.dedup := by
  rw [firstNumbers, List.map_map]
  exact List.map_id _

theorem mem_firstNumbers {keys : List UInt64} {e : KeyValue} :
    e ∈ firstNumbers keys ↔ e.key ∈ keys ∧ e.value = (keys.idxOf e.key).toUInt64 := by
  rw [firstNumbers, List.mem_map]
  constructor
  · rintro ⟨key, hkey, rfl⟩
    exact ⟨List.mem_dedup.1 hkey, rfl⟩
  · intro h
    obtain ⟨hkey, hvalue⟩ := h
    exact ⟨e.key, List.mem_dedup.2 hkey, by rw [← hvalue]⟩

theorem nodup_firstNumbers (keys : List UInt64) : (firstNumbers keys).Nodup :=
  List.Nodup.of_map Entry.key (keys_firstNumbers keys ▸ keys.nodup_dedup)

/-- A key that was drawn before adds nothing. -/
theorem firstNumbers_of_mem {keys : List UInt64} {key : UInt64} (h : key ∈ keys) :
    (firstNumbers keys).Perm (firstNumbers (keys ++ [key])) := by
  refine (List.perm_ext_iff_of_nodup (nodup_firstNumbers _) (nodup_firstNumbers _)).2 ?_
  intro e
  rw [mem_firstNumbers, mem_firstNumbers, List.mem_append, List.mem_singleton]
  have hsame : e.key ∈ keys ∨ e.key = key ↔ e.key ∈ keys :=
    or_iff_left_of_imp fun heq => heq ▸ h
  rw [hsame]
  refine and_congr_right ?_
  intro hmem
  rw [List.idxOf_append_of_mem hmem]

/-- A new key is added under the next number. -/
theorem firstNumbers_of_not_mem {keys : List UInt64} {key : UInt64} (h : key ∉ keys) :
    (firstNumbers keys ++ [(⟨key, keys.length.toUInt64⟩ : KeyValue)]).Perm
      (firstNumbers (keys ++ [key])) := by
  have hnew : ⟨key, keys.length.toUInt64⟩ ∉ firstNumbers keys :=
    fun hmem => h (mem_firstNumbers.1 hmem).1
  refine (List.perm_ext_iff_of_nodup ?_ (nodup_firstNumbers _)).2 ?_
  · exact List.nodup_append.2 ⟨nodup_firstNumbers _, List.nodup_singleton _, by
      rintro e he _ hlast rfl
      exact hnew (List.mem_singleton.1 hlast ▸ he)⟩
  intro e
  rw [List.mem_append, List.mem_singleton, mem_firstNumbers, mem_firstNumbers, List.mem_append,
    List.mem_singleton]
  by_cases hkey : e.key = key
  · -- the new key comes first at the end of the list
    have hindex : (keys ++ [key]).idxOf e.key = keys.length := by
      rw [hkey, List.idxOf_append_of_notMem h, List.idxOf_cons_self, Nat.add_zero]
    rw [hindex]
    obtain ⟨k, value⟩ := e
    obtain rfl : k = key := hkey
    simp [h]
  · have hne : ¬ e = ⟨key, keys.length.toUInt64⟩ := fun heq => hkey (heq ▸ rfl)
    simp only [or_iff_left hne, or_iff_left hkey]
    refine and_congr_right ?_
    intro hmem
    rw [List.idxOf_append_of_mem hmem]

section Table

variable {t : Table KeyValue} {drawn keys : List UInt64}

/-- One more key in a table that has room: the table then holds the first numbers of all keys, and
is refused nothing but a key that it has already. -/
theorem insertKeys_cons (keys : List UInt64) {key : UInt64} (h : t.Holds (firstNumbers drawn))
    (hzero : key ≠ 0) (hroom : drawn.length + 1 < t.slots.size) :
    ∃ t' : Table KeyValue, t'.Holds (firstNumbers (drawn ++ [key])) ∧
      t'.slots.size = t.slots.size ∧ t'.mode = t.mode ∧
      insertKeys t drawn.length.toUInt64 (key :: keys) =
        insertKeys t' (drawn ++ [key]).length.toUInt64 keys := by
  have hnext : (drawn ++ [key]).length.toUInt64 = drawn.length.toUInt64 + 1 := by
    rw [List.length_append, List.length_singleton]
    exact UInt64.ofNat_add _ _
  obtain ⟨hresult, hok, herror⟩ := h.insert_eq ⟨key, drawn.length.toUInt64⟩
  have hsize := t.size_insert ⟨key, drawn.length.toUInt64⟩
  have hmode := t.mode_insert ⟨key, drawn.length.toUInt64⟩
  -- there are no more entries than keys, so the table is not full
  have hcount : t.count ≤ drawn.length := by
    rw [h.count_eq, ← List.length_map Entry.key, keys_firstNumbers]
    exact drawn.dedup_sublist.length_le
  have hkey : Entry.key (⟨key, drawn.length.toUInt64⟩ : KeyValue) = key := rfl
  rw [keys_firstNumbers, hkey, if_neg hzero, if_neg (by omega)] at hresult
  rw [hnext, insertKeys]
  by_cases hmem : key ∈ drawn
  · rw [if_pos (List.mem_dedup.2 hmem)] at hresult
    have hsame := herror (by rw [hresult]; nofun)
    refine ⟨t, h.of_perm (firstNumbers_of_mem hmem), rfl, rfl, ?_⟩
    split
    next t' heq => rw [heq] at hresult; cases hresult
    next t' heq => rw [heq] at hsame; rw [← hsame]
    next e t' hne heq => rw [heq] at hresult; exact absurd (Except.error.inj hresult) (hne _)
  · rw [if_neg (mt List.mem_dedup.1 hmem)] at hresult
    refine ⟨_, (hok hresult).of_perm (firstNumbers_of_not_mem hmem), hsize, hmode, ?_⟩
    split
    next t' heq => rw [heq]
    next t' heq => rw [heq] at hresult; cases hresult
    next e t' _ heq => rw [heq] at hresult; cases hresult

/-- A table with room for all keys comes to hold them under their first numbers. The induction is on
the keys that are still to be put in. -/
theorem insertKeys_eq (h : t.Holds (firstNumbers drawn)) (hzero : ∀ key ∈ keys, key ≠ 0)
    (hroom : drawn.length + keys.length < t.slots.size) :
    ∃ t', insertKeys t drawn.length.toUInt64 keys = .ok t' ∧
      t'.Holds (firstNumbers (drawn ++ keys)) ∧ t'.slots.size = t.slots.size ∧
      t'.mode = t.mode := by
  induction keys generalizing t drawn with
  | nil => exact ⟨t, rfl, by rwa [List.append_nil], rfl, rfl⟩
  | cons key keys ih =>
    rw [List.forall_mem_cons] at hzero
    rw [List.length_cons] at hroom
    obtain ⟨t', hholds, hsize, hmode, hinsert⟩ := insertKeys_cons keys h hzero.1 (by omega)
    obtain ⟨t'', hall, hholds', hsize', hmode'⟩ := ih hholds hzero.2 (by
      rw [hsize, List.length_append, List.length_singleton]
      omega)
    rw [List.append_assoc] at hholds'
    exact ⟨t'', hinsert.trans hall, hholds', hsize'.trans hsize, hmode'.trans hmode⟩

/-- A table of first numbers answers for the keys that were drawn, and for no other ones. -/
theorem find_eq (h : t.Holds (firstNumbers keys)) (key : UInt64) :
    t.find key = if key ∈ keys then some ⟨key, (keys.idxOf key).toUInt64⟩ else none := by
  split
  next hmem =>
    rw [h.find_eq_some_iff, mem_firstNumbers]
    exact ⟨⟨hmem, rfl⟩, rfl⟩
  next hmem =>
    rw [Option.eq_none_iff_forall_not_mem]
    intro e he
    obtain ⟨hfirst, rfl⟩ := h.find_eq_some_iff.1 he
    exact hmem (mem_firstNumbers.1 hfirst).1

/-- What queries find in it: as many hits as there are queries for keys that were drawn, and the sum
of the first numbers of these. -/
theorem foldl_answer (h : t.Holds (firstNumbers keys)) (f : Found) (queries : List UInt64) :
    queries.foldl (answer t) f =
      ⟨f.hits + queries.countP (· ∈ keys),
        f.checksum + ((queries.filter (· ∈ keys)).map keys.idxOf).sum.toUInt64⟩ := by
  induction queries generalizing f with
  | nil => simp
  | cons key queries ih =>
    have hfind : t.complete key (t.locate key) =
        if key ∈ keys then some ⟨key, (keys.idxOf key).toUInt64⟩ else none := find_eq h key
    rw [List.foldl_cons, ih, answer, finish, hfind]
    by_cases hmem : key ∈ keys
    · have hcount : (key :: queries).countP (· ∈ keys) = queries.countP (· ∈ keys) + 1 :=
        List.countP_cons_of_pos (decide_eq_true hmem)
      have hfilter : (key :: queries).filter (· ∈ keys) = key :: queries.filter (· ∈ keys) :=
        List.filter_cons_of_pos (decide_eq_true hmem)
      rw [if_pos hmem, hcount, hfilter, List.map_cons, List.sum_cons]
      dsimp only
      rw [Nat.toUInt64_eq, Nat.toUInt64_eq, Nat.toUInt64_eq, UInt64.ofNat_add, UInt64.add_assoc,
        Nat.add_assoc, Nat.add_comm 1]
    · have hcount : (key :: queries).countP (· ∈ keys) = queries.countP (· ∈ keys) :=
        List.countP_cons_of_neg (by simpa using hmem)
      have hfilter : (key :: queries).filter (· ∈ keys) = queries.filter (· ∈ keys) :=
        List.filter_cons_of_neg (by simpa using hmem)
      rw [if_neg hmem, hcount, hfilter]

end Table

/-! ## Whole trials -/

/-- A drawn number below the greatest one is made into a key by adding one. -/
theorem drawKey_ne_zero {σ : Type} (d : Draws σ) (s : σ) : (drawKey d s).1 ≠ 0 := by
  have hlt := (d.upTo (2 ^ 64 - 2) s).1.isLt
  intro hzero
  have hnat := congrArg UInt64.toNat hzero
  rw [drawKey] at hnat
  simp only [UInt64.toNat_add, Nat.toUInt64_eq, UInt64.toNat_ofNat'] at hnat
  have hone : (1 : UInt64).toNat = 1 := rfl
  have hnone : (0 : UInt64).toNat = 0 := rfl
  omega

/-- What a trial asks of its plan: zero is no key, and the buckets can be held. -/
structure Plan.Sound (p : Plan) : Prop where
  key_ne_zero : ∀ key ∈ p.keys, key ≠ 0
  room : bucketCount p.keys.length p.multiplier * Entry.bytes KeyValue ≤ maxBytes

/-- The table of a trial has more buckets than keys, whatever the multiplier is. -/
theorem lt_bucketCount (keys : Nat) (multiplier : Single) : keys < bucketCount keys multiplier :=
  Nat.lt_of_lt_of_le (Table.lt_bucketsFor keys multiplier) (le_nextPowerOfTwo _)

/-- Loading cannot fail, and gives a table of the first numbers of all keys. -/
theorem load_eq {p : Plan} (h : p.Sound) (mode : BucketMode) :
    ∃ t, load p mode = .ok t ∧ t.Holds (firstNumbers p.keys) ∧
      t.slots.size = bucketCount p.keys.length p.multiplier ∧ t.mode = mode := by
  have hmore := lt_bucketCount p.keys.length p.multiplier
  have hroom : bucketCount p.keys.length p.multiplier * 16 ≤ 2 ^ 63 - 1 := h.room
  obtain ⟨empty, hempty⟩ := Table.withBuckets_eq_ok (α := KeyValue) (Nat.zero_lt_of_lt hmore)
    ⟨by omega, h.room⟩ fun _ : mode = .mask => isPowerOfTwo_nextPowerOfTwo _
  obtain ⟨hholds, hsize⟩ := Table.holds_withBuckets hempty
  have hnone : empty.Holds (firstNumbers []) := hholds
  obtain ⟨t, hall, hholds', hsize', hmode⟩ := insertKeys_eq hnone h.key_ne_zero (by
    rw [hsize, List.length_nil, Nat.zero_add]
    exact hmore)
  refine ⟨t, ?_, hholds', hsize'.trans hsize, hmode.trans (Table.mode_withBuckets hempty)⟩
  rw [load, hempty]
  exact hall

/-- What a trial finds, from its keys and queries alone. -/
def Plan.findings (p : Plan) (mode : BucketMode) : TrialResult where
  mode
  buckets := bucketCount p.keys.length p.multiplier
  entries := p.keys.dedup.length
  hits := p.queries.countP (· ∈ p.keys)
  checksum := ((p.queries.filter (· ∈ p.keys)).map fun key => p.keys.idxOf key).sum.toUInt64

/-- A trial fails if its queue cannot be held, and otherwise finds what its keys and queries say. -/
theorem measure_eq {p : Plan} (h : p.Sound) (mode : BucketMode) : measure p mode =
    if p.depth * 16 ≤ maxBytes then .ok (p.findings mode) else .error .outOfRange := by
  obtain ⟨t, hload, hholds, hsize, rfl⟩ := load_eq h mode
  have hcount : t.count = p.keys.dedup.length := by
    rw [hholds.count_eq, ← List.length_map Entry.key, keys_firstNumbers]
  have hempty : Located t {} := fun _ hq => absurd hq List.not_mem_nil
  have hpump : pump t p.depth {} {} p.queries = p.queries.foldl (answer t) {} :=
    pump_eq hempty p.queries
  rw [foldl_answer hholds, Nat.zero_add, UInt64.zero_add] at hpump
  rw [measure, hload]
  show look p t >>= _ = _
  rw [look]
  split
  next =>
    show Except.ok (result t (pump t p.depth {} {} p.queries)) = _
    rw [hpump, result, hcount, Buckets.size, hsize]
    rfl
  next => rfl

/-- What the result of a trial says of its keys and queries: the number of different keys, a hit for
each query that asks for one of them, which zero never does, and the sum of the numbers with which
the keys that were asked for were drawn first. -/
structure Plan.Finds (p : Plan) (r : TrialResult) : Prop where
  entries : r.entries = p.keys.dedup.length
  hits : r.hits = p.queries.countP (· ∈ p.keys)
  zero_misses : 0 ∉ p.queries.filter (· ∈ p.keys)
  checksum : r.checksum.toNat =
    ((p.queries.filter (· ∈ p.keys)).map fun key => p.keys.idxOf key).sum % 2 ^ 64

theorem Plan.Sound.finds {p : Plan} (h : p.Sound) (mode : BucketMode) :
    p.Finds (p.findings mode) := by
  refine ⟨rfl, rfl, ?_, UInt64.toNat_ofNat'⟩
  intro hzero
  exact h.key_ne_zero 0 (of_decide_eq_true (List.mem_filter.1 hzero).2) rfl

/-! ## Trials that are drawn -/

/-- What can be tried: there are keys, table and queries can be held, and a query that is drawn may
ask for a key in some part of all cases. -/
structure Feasible (spec : TrialSpec) : Prop where
  entries_pos : 0 < spec.entries
  fits : fits spec = true
  ratio : spec.lookups = 0 ∨ isRatio spec.hitRatio = true

section Drawn

variable {σ : Type} {d : Draws σ} {spec : TrialSpec} {s : σ} {p : Plan} {mode : BucketMode}

theorem Feasible.withDepth (h : Feasible spec) (depth : Nat) :
    Feasible { spec with queueDepth := depth } :=
  ⟨h.entries_pos, h.fits, h.ratio⟩

/-- **A trial can be drawn exactly if it is feasible** and at least one query may be in flight. -/
theorem planWith_eq_ok_iff : planWith d spec s = .ok p ↔
    (Feasible spec ∧ 0 < spec.queueDepth) ∧ p = draw d spec s := by
  unfold planWith
  constructor
  · intro h
    split at h
    next => cases h
    next hsize =>
      split at h
      next => cases h
      next hfits =>
        split at h
        next => cases h
        next hratio =>
          cases h
          refine ⟨⟨⟨by omega, by simpa using hfits, ?_⟩, by omega⟩, rfl⟩
          rcases Nat.eq_zero_or_pos spec.lookups with hnone | hsome
          · exact Or.inl hnone
          · exact Or.inr (by simpa [hsome] using hratio)
  · rintro ⟨⟨⟨hentries, hfits, hratio⟩, hdepth⟩, rfl⟩
    have hdraws : ¬ (0 < spec.lookups ∧ (!isRatio spec.hitRatio) = true) := by
      rintro ⟨hsome, hnot⟩
      rcases hratio with hnone | hratio
      · omega
      · simp [hratio] at hnot
    rw [if_neg (by omega), if_neg (by simp [hfits]), if_neg hdraws]

theorem length_keys_draw (d : Draws σ) (spec : TrialSpec) (s : σ) :
    (draw d spec s).keys.length = spec.entries :=
  (Array.length_toList ..).trans (Draws.size_times ..)

theorem length_queries_draw (d : Draws σ) (spec : TrialSpec) (s : σ) :
    (draw d spec s).queries.length = spec.lookups :=
  (Array.length_toList ..).trans (Draws.size_times ..)

/-- What is drawn can be tried. -/
theorem Feasible.sound (h : Feasible spec) (d : Draws σ) (s : σ) : (draw d spec s).Sound := by
  refine ⟨?_, ?_⟩
  · intro key hkey
    exact Draws.forall_mem_times (p := (· ≠ 0)) (drawKey_ne_zero d) key
      (Array.mem_toList_iff.1 hkey)
  · have hfits := h.fits
    simp only [TableTrial.fits, Bool.and_eq_true, decide_eq_true_eq] at hfits
    rw [length_keys_draw]
    exact hfits.1

theorem Feasible.plan_eq (h : Feasible spec) (hdepth : 0 < spec.queueDepth) :
    plan spec = .ok (draw ChaCha.draws spec (.ofSeed spec.seed)) :=
  planWith_eq_ok_iff.2 ⟨⟨h, hdepth⟩, rfl⟩

/-- A trial that can be drawn fails if its queue cannot be held. -/
theorem Feasible.run_eq (h : Feasible spec) (hdepth : 0 < spec.queueDepth) (mode : BucketMode) :
    run spec mode = if spec.queueDepth * 16 ≤ maxBytes then
      .ok ((draw ChaCha.draws spec (.ofSeed spec.seed)).findings mode) else .error .outOfRange := by
  rw [run, h.plan_eq hdepth]
  exact measure_eq (h.sound ..) mode

/-- **Which trials are carried out.** -/
theorem run_eq_ok_iff : (∃ r, run spec mode = .ok r) ↔
    Feasible spec ∧ 0 < spec.queueDepth ∧ spec.queueDepth * 16 ≤ maxBytes := by
  constructor
  · rintro ⟨r, h⟩
    obtain ⟨p, hplan, -⟩ := exists_of_bind_eq_ok h
    obtain ⟨⟨hfeasible, hdepth⟩, -⟩ := planWith_eq_ok_iff.1 hplan
    rw [hfeasible.run_eq hdepth] at h
    split at h
    next hroom => exact ⟨hfeasible, hdepth, hroom⟩
    next => cases h
  · rintro ⟨hfeasible, hdepth, hroom⟩
    exact ⟨_, (hfeasible.run_eq hdepth mode).trans (if_pos hroom)⟩

end Drawn

/-- **Delaying queries changes no result.** Where zero is not among the keys, and the buckets and
the queue can be held, a trial does not fail, whatever its multiplier is, and finds what its keys
and queries say. The same entries, hits and sum are found with a queue of any length that can be
held and in both modes. A trial of a given shape is carried out if it is feasible, with a queue for
at least one query that can be held, and not otherwise; its keys and queries do not depend on the
queue, and there are as many of them as were asked for. -/
theorem run_exact :
    (∀ (p : Plan) (mode : BucketMode), p.Sound → p.depth * 16 ≤ maxBytes →
      ∃ r, measure p mode = .ok r ∧ p.Finds r ∧
        ∀ (depth : Nat) (mode' : BucketMode), depth * 16 ≤ maxBytes →
          ∃ r', measure { p with depth } mode' = .ok r' ∧
            r'.entries = r.entries ∧ r'.hits = r.hits ∧ r'.checksum = r.checksum) ∧
    (∀ spec : TrialSpec, Feasible spec → ∃ p : Plan, p.Sound ∧ p.keys.length = spec.entries ∧
      p.queries.length = spec.lookups ∧
      ∀ depth, 0 < depth → depth * 16 ≤ maxBytes →
        plan { spec with queueDepth := depth } = .ok { p with depth } ∧
        (∀ mode, ∃ r, run { spec with queueDepth := depth } mode = .ok r ∧ r.mode = mode ∧
          p.Finds r) ∧
        ∃ r r', runAll { spec with queueDepth := depth } = .ok [r, r'] ∧ p.Finds r ∧ p.Finds r') ∧
    ∀ (spec : TrialSpec) (mode : BucketMode), (∃ r, run spec mode = .ok r) ↔
      Feasible spec ∧ 0 < spec.queueDepth ∧ spec.queueDepth * 16 ≤ maxBytes := by
  refine ⟨?_, ?_, fun _ _ => run_eq_ok_iff⟩
  · intro p mode h hroom
    refine ⟨_, (measure_eq h mode).trans (if_pos hroom), h.finds mode, ?_⟩
    intro depth mode' hroom'
    have hsound : Plan.Sound { p with depth } := ⟨h.key_ne_zero, h.room⟩
    exact ⟨_, (measure_eq hsound mode').trans (if_pos hroom'), rfl, rfl, rfl⟩
  · intro spec hfeasible
    have hsound := hfeasible.sound ChaCha.draws (.ofSeed spec.seed)
    refine ⟨_, hsound, length_keys_draw .., length_queries_draw .., ?_⟩
    intro depth hdepth hroom
    -- the keys and queries of each depth are the same
    have hrun (mode : BucketMode) : run { spec with queueDepth := depth } mode =
        .ok ((draw ChaCha.draws spec (.ofSeed spec.seed)).findings mode) :=
      ((hfeasible.withDepth depth).run_eq hdepth mode).trans (if_pos hroom)
    refine ⟨(hfeasible.withDepth depth).plan_eq hdepth,
      fun mode => ⟨_, hrun mode, rfl, hsound.finds mode⟩, _, _, ?_,
      hsound.finds .divide, hsound.finds .mask⟩
    rw [runAll, List.mapM_cons, List.mapM_cons, List.mapM_nil, hrun, hrun]
    rfl

/-- Of three keys the last one was drawn before, and the multiplier is not a number. Five queries in
a queue of two come to three hits, and the second key counts once. A trial with one key has one
entry, in either mode and with a queue of two or of nine. -/
theorem run_exact_repeated :
    (∃ r, measure ⟨[7, 9, 7], [7, 0, 9, 8, 7], ⟨0x7fc00000⟩, 2⟩ .mask = .ok r ∧
      r.entries = 2 ∧ r.hits = 3 ∧ r.checksum = 1 ∧
      ∃ r', measure ⟨[7, 9, 7], [7, 0, 9, 8, 7], ⟨0x7fc00000⟩, 9⟩ .divide = .ok r' ∧
        r'.hits = r.hits) ∧
    Feasible { entries := 1, lookups := 3, seed := 3 } ∧
    ∃ r r', run { entries := 1, lookups := 3, queueDepth := 2, seed := 3 } .divide = .ok r ∧
      run { entries := 1, lookups := 3, queueDepth := 9, seed := 3 } .mask = .ok r' ∧
      r.entries = 1 ∧ r'.entries = 1 ∧ r.hits = r'.hits := by
  obtain ⟨hmeasure, hrun, -⟩ := run_exact
  refine ⟨?_, ?_⟩
  · have hsound : Plan.Sound ⟨[7, 9, 7], [7, 0, 9, 8, 7], ⟨0x7fc00000⟩, 2⟩ :=
      ⟨by simp, by decide +kernel⟩
    obtain ⟨r, hr, hfinds, hsame⟩ := hmeasure _ .mask hsound (by decide)
    obtain ⟨r', hr', -, hhits', -⟩ := hsame 9 .divide (by decide)
    exact ⟨r, hr, hfinds.entries, hfinds.hits, UInt64.toNat_inj.1 hfinds.checksum, r', hr', hhits'⟩
  · have hfeasible : Feasible { entries := 1, lookups := 3, seed := 3 } :=
      ⟨by decide, by decide +kernel, Or.inr (by decide +kernel)⟩
    obtain ⟨p, -, hkeys, -, hall⟩ := hrun _ hfeasible
    obtain ⟨-, hmodes, -⟩ := hall 2 (by decide) (by decide)
    obtain ⟨-, hmodes', -⟩ := hall 9 (by decide) (by decide)
    obtain ⟨r, hr, -, hfinds⟩ := hmodes .divide
    obtain ⟨r', hr', -, hfinds'⟩ := hmodes' .mask
    have hone : p.keys.dedup.length = 1 := by
      obtain ⟨key, hkey⟩ := List.length_eq_one_iff.1 hkeys
      rw [hkey]
      rfl
    exact ⟨hfeasible, r, r', hr, hr', hfinds.entries.trans hone, hfinds'.entries.trans hone,
      hfinds.hits.trans hfinds'.hits.symm⟩

/-- A queue for `2 ^ 59` queries cannot be held, and then nothing is found. -/
theorem run_unheld :
    measure ⟨[7], [7], ⟨0x3fc00000⟩, 2 ^ 59⟩ .divide = .error .outOfRange ∧
    ∀ mode, run { entries := 1, lookups := 3, queueDepth := 2 ^ 59, seed := 3 } mode =
      .error .outOfRange := by
  refine ⟨?_, ?_⟩
  · have hsound : Plan.Sound ⟨[7], [7], ⟨0x3fc00000⟩, 2 ^ 59⟩ := ⟨by simp, by decide +kernel⟩
    exact (measure_eq hsound .divide).trans (if_neg (by decide))
  · intro mode
    have hfeasible : Feasible { entries := 1, lookups := 3, queueDepth := 2 ^ 59, seed := 3 } :=
      ⟨by decide, by decide +kernel, Or.inr (by decide +kernel)⟩
    exact (hfeasible.run_eq (by decide) mode).trans (if_neg (by decide))

end TableTrial

end Ngram
