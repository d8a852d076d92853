import Mathlib.Data.List.Nodup
import Ngram.Proofs.Checks
import Ngram.Proofs.Hash.Filling
import Ngram.Proofs.Model.Visit

/-!
# Which collections are accepted

A collection becomes a model if it passes the checks and its tables can be filled. The checks say
what the n-grams have to be, and the tables add that no two keys of one length are equal and none is
zero. In which order the n-grams are visited is all the same for both, and for what the model holds.

> `Visit.validate_eq_ok_iff`: the checks, in plain words (`WellFormed`).
> `Visit.table_eq_ok_iff`: when the table of one length can be filled.
> `Visit.build_eq_ok_iff`: which collections are accepted, and `Built`, what the model holds.
> `build_eq_ok_iff`, `built_of_build`: the case of the map's own order.
-/

namespace Ngram

namespace Builder

variable {b : Builder}

theorem mem_ofLength {e : Gram × GivenWeights} {length : Nat} :
    e ∈ b.ofLength length ↔ b.grams[e.1]? = some e.2 ∧ e.1.length = length := by
  rw [ofLength, List.mem_filter, beq_iff_eq]
  exact and_congr_left fun _ => Std.HashMap.mem_toList_iff_getElem?_eq_some

theorem exists_mem_ofLength {g : Gram} (h : g ∈ b.grams) : (g, b.grams[g]) ∈ b.ofLength g.length :=
  mem_ofLength.2 ⟨Std.HashMap.getElem?_eq_some_getElem h, rfl⟩

theorem mem_of_mem_ofLength {e : Gram × GivenWeights} {length : Nat} (h : e ∈ b.ofLength length) :
    e.1 ∈ b.grams ∧ e.1.length = length := by
  obtain ⟨hget, hlen⟩ := mem_ofLength.1 h
  exact ⟨Std.HashMap.mem_iff_isSome_getElem?.2 (by rw [hget]; rfl), hlen⟩

/-- The n-grams of one length are listed once each. -/
theorem nodup_ofLength (length : Nat) : ((b.ofLength length).map Prod.fst).Nodup := by
  have h : b.grams.toList.Pairwise fun e e' => (e.1 == e'.1) = false :=
    Std.HashMap.distinct_keys_toList
  refine List.pairwise_map.2 ((h.sublist List.filter_sublist).imp ?_)
  intro e e' hne heq
  rw [heq, beq_self_eq_true] at hne
  cases hne

theorem ext_of_mem_ofLength {e e' : Gram × GivenWeights} {length : Nat} (he : e ∈ b.ofLength length)
    (he' : e' ∈ b.ofLength length) (h : e.1 = e'.1) : e = e' := by
  have hget := (mem_ofLength.1 he).1
  rw [h, (mem_ofLength.1 he').1] at hget
  exact Prod.ext h (Option.some.inj hget).symm

theorem words_inside_iff {g : Gram} :
    g.find? (b.vocabulary.bound ≤ ·) = none ↔ ∀ word ∈ g, word < b.vocabulary.bound := by
  rw [List.find?_eq_none]
  simp

/-- What the checks ask of a collection. -/
structure WellFormed (b : Builder) : Prop where
  vocabulary : b.vocabulary.Valid
  order_pos : 0 < b.order
  order_le : b.order ≤ maxOrder
  rejected : b.rejected = none
  length_le : ∀ g ∈ b.grams, g.length ≤ b.order
  inside : ∀ g ∈ b.grams, ∀ word ∈ g, word < b.vocabulary.bound
  suffix : ∀ g ∈ b.grams, 3 ≤ g.length → g.tail ∈ b.grams

theorem checkOrder_eq_ok_iff :
    b.checkOrder = .ok () ↔ 0 < b.order ∧ b.order ≤ maxOrder ∧ b.rejected = none := by
  unfold checkOrder
  split
  next h =>
    simp only [reduceCtorEq, false_iff]
    omega
  next h =>
    cases hr : b.rejected with
    | none =>
      simp only [true_iff, and_true]
      omega
    | some length => simp

theorem checkLengths_eq_ok_iff (horder : 0 < b.order) :
    b.checkLengths = .ok () ↔ ∀ g ∈ b.grams, g.length ≤ b.order := by
  unfold checkLengths
  rw [forM_eq_ok_iff]
  constructor
  · intro h g hg
    -- its length would be one over the order with an n-gram in it, which is refused
    by_contra hlong
    obtain ⟨-, hmax⟩ := b.lengths g hg
    have hcount : 0 < (b.ofLength g.length).length :=
      List.length_pos_of_mem (exists_mem_ofLength hg)
    have hcheck := h g.length (by rw [List.mem_range'_1]; omega)
    dsimp only at hcheck
    rw [if_pos ⟨by omega, hcount⟩] at hcheck
    cases hcheck
  · intro h length _
    dsimp only
    rw [if_neg]
    intro h
    obtain ⟨hlong, hcount⟩ := h
    obtain ⟨e, he⟩ := List.exists_mem_of_length_pos hcount
    obtain ⟨hmem, hlen⟩ := mem_of_mem_ofLength he
    have := h e.1 hmem
    omega

theorem checkUnigram_eq_ok_iff {g : Gram} :
    b.checkUnigram g = .ok () ↔ ∀ word ∈ g, word < b.vocabulary.bound := by
  rw [← words_inside_iff, checkUnigram]
  split
  next h => simp [h]
  next h => simp [h]

theorem checkGram_eq_ok_iff {g : Gram} :
    b.checkGram g = .ok () ↔
      (∀ word ∈ g, word < b.vocabulary.bound) ∧ (3 ≤ g.length → g.tail ∈ b.grams) := by
  rw [← words_inside_iff, checkGram]
  split
  next h => simp [h]
  next h =>
    rw [h, contains]
    by_cases hlen : 3 ≤ g.length
    · by_cases hmem : g.tail ∈ b.grams
      · simp [hmem]
      · simp [hlen, hmem]
    · simp [hlen]

theorem Visit.checkGrams_eq_ok_iff (o : b.Visit) (hlength : ∀ g ∈ b.grams, g.length ≤ b.order) :
    o.checkGrams = .ok () ↔
      (∀ g ∈ b.grams, ∀ word ∈ g, word < b.vocabulary.bound) ∧
        ∀ g ∈ b.grams, 3 ≤ g.length → g.tail ∈ b.grams := by
  unfold checkGrams
  rw [bind_eq_ok_iff, forM_eq_ok_iff, forM_eq_ok_iff]
  simp only [forM_eq_ok_iff, checkUnigram_eq_ok_iff, checkGram_eq_ok_iff, List.mem_range'_1,
    o.mem_ofLength_iff]
  constructor
  · intro h
    obtain ⟨hone, hmore⟩ := h
    have hboth : ∀ g ∈ b.grams, (∀ word ∈ g, word < b.vocabulary.bound) ∧
        (3 ≤ g.length → g.tail ∈ b.grams) := by
      intro g hg
      obtain ⟨hpos, -⟩ := b.lengths g hg
      have hle := hlength g hg
      have hlist := exists_mem_ofLength hg
      by_cases hlen : g.length = 1
      · rw [hlen] at hlist ⊢
        exact ⟨hone _ hlist, by omega⟩
      · exact hmore g.length (by omega) _ hlist
    exact ⟨fun g hg => (hboth g hg).1, fun g hg => (hboth g hg).2⟩
  · intro h
    obtain ⟨hinside, hsuffix⟩ := h
    refine ⟨fun e he => hinside e.1 (mem_of_mem_ofLength he).1, ?_⟩
    intro length _ e he
    have hmem := (mem_of_mem_ofLength he).1
    exact ⟨hinside e.1 hmem, hsuffix e.1 hmem⟩

/-- The checks, in plain words. -/
theorem Visit.validate_eq_ok_iff (o : b.Visit) {settings : TableSettings} :
    o.validate settings = .ok () ↔ settings.validate = .ok () ∧ b.WellFormed := by
  unfold validate
  simp only [bind_eq_ok_iff]
  rw [Vocabulary.validate_eq_ok, checkOrder_eq_ok_iff]
  constructor
  · intro h
    obtain ⟨hsettings, hvocabulary, ⟨hpos, hle, hrejected⟩, hlengths, hgrams⟩ := h
    have hlength := (checkLengths_eq_ok_iff hpos).1 hlengths
    obtain ⟨hinside, hsuffix⟩ := (o.checkGrams_eq_ok_iff hlength).1 hgrams
    exact ⟨hsettings, hvocabulary, hpos, hle, hrejected, hlength, hinside, hsuffix⟩
  · intro h
    obtain ⟨hsettings, h⟩ := h
    exact ⟨hsettings, h.vocabulary, ⟨h.order_pos, h.order_le, h.rejected⟩,
      (checkLengths_eq_ok_iff h.order_pos).2 h.length_le,
      (o.checkGrams_eq_ok_iff h.length_le).2 ⟨h.inside, h.suffix⟩⟩

/-- No two n-grams of a length share a key, and none has the key that stands for an empty bucket. -/
structure Keyed (b : Builder) (length : Nat) : Prop where
  ne_zero : ∀ g ∈ b.grams, g.length = length → g.key ≠ 0
  injective : ∀ g ∈ b.grams, ∀ g' ∈ b.grams, g.length = length → g'.length = length →
    g.key = g'.key → g = g'

section Tables

variable {α : Type} [Entry α] {settings : TableSettings} {length : Nat}
  {entry : Gram → GivenWeights → α}

/-- The entries of the n-grams of one length. -/
def entriesOf (b : Builder) (length : Nat) (entry : Gram → GivenWeights → α) : List α :=
  (b.ofLength length).map fun e => entry e.1 e.2

theorem keys_entriesOf (hkey : ∀ g given, Entry.key (entry g given) = g.key) :
    (b.entriesOf length entry).map Entry.key = (b.ofLength length).map fun e => e.1.key := by
  rw [entriesOf, List.map_map]
  exact List.map_congr_left fun e _ => hkey e.1 e.2

theorem keyed_iff (hkey : ∀ g given, Entry.key (entry g given) = g.key) :
    b.Keyed length ↔ (∀ e ∈ b.entriesOf length entry, Entry.key e ≠ 0) ∧
      ((b.entriesOf length entry).map Entry.key).Nodup := by
  rw [keys_entriesOf hkey]
  constructor
  · intro h
    refine ⟨?_, ?_⟩
    · intro e he
      obtain ⟨e', he', rfl⟩ := List.mem_map.1 he
      obtain ⟨hmem, hlen⟩ := mem_of_mem_ofLength he'
      rw [hkey]
      exact h.ne_zero _ hmem hlen
    · refine (List.nodup_map_iff_inj_on (nodup_ofLength length).of_map).2 ?_
      intro e he e' he' heq
      obtain ⟨hmem, hlen⟩ := mem_of_mem_ofLength he
      obtain ⟨hmem', hlen'⟩ := mem_of_mem_ofLength he'
      exact ext_of_mem_ofLength he he' (h.injective _ hmem _ hmem' hlen hlen' heq)
  · intro h
    obtain ⟨hzero, hnodup⟩ := h
    refine ⟨?_, ?_⟩
    · intro g hg hlen
      have := hzero _ (List.mem_map.2 ⟨_, hlen ▸ exists_mem_ofLength hg, rfl⟩)
      rwa [hkey] at this
    · intro g hg g' hg' hlen hlen' heq
      have hinj := List.inj_on_of_nodup_map hnodup (hlen ▸ exists_mem_ofLength hg)
        (hlen' ▸ exists_mem_ofLength hg') heq
      exact congrArg Prod.fst hinj

omit [Entry α] in
theorem length_entriesOf : (b.entriesOf length entry).length = (b.ofLength length).length :=
  List.length_map _

omit [Entry α] in
theorem Visit.perm_entriesOf (o : b.Visit) (length : Nat) (entry : Gram → GivenWeights → α) :
    (o.entriesOf length entry).Perm (b.entriesOf length entry) :=
  (o.perm_ofLength length).map _

/-- The table of one length is filled with the entries of its n-grams. -/
theorem Visit.table_eq (o : b.Visit) :
    o.table settings length entry = Table.filled settings (o.entriesOf length entry) := by
  rw [table, Table.filled, entriesOf, List.length_map]

/-- A table of one length can be filled if its buckets can be held and the keys are fit for it. -/
theorem Visit.table_eq_ok_iff (o : b.Visit) (hvalid : settings.validate = .ok ())
    (hkey : ∀ g given, Entry.key (entry g given) = g.key) :
    (∃ t, o.table settings length entry = .ok t) ↔
      Table.Fits α (b.ofLength length).length settings ∧ b.Keyed length := by
  have hperm := o.perm_entriesOf length entry
  rw [keyed_iff hkey, o.table_eq, Table.filled_eq_ok_iff hvalid, hperm.length_eq, length_entriesOf,
    (hperm.map Entry.key).nodup_iff]
  simp only [hperm.mem_iff]

/-- It holds those entries then, and has the buckets that were asked for. -/
theorem Visit.holds_table (o : b.Visit) {t : Table α} (hvalid : settings.validate = .ok ())
    (h : o.table settings length entry = .ok t) :
    t.Holds (b.entriesOf length entry) ∧
      t.slots.size = Table.bucketsOf (b.ofLength length).length settings := by
  rw [o.table_eq] at h
  obtain ⟨hholds, hsize⟩ := Table.holds_filled hvalid h
  have hperm := o.perm_entriesOf length entry
  refine ⟨hholds.of_perm hperm, ?_⟩
  rw [hsize, hperm.length_eq, length_entriesOf]

end Tables

/-- The entry of an n-gram below the highest order. -/
def middleEntry (b : Builder) (g : Gram) (given : GivenWeights) : MiddleEntry :=
  { key := g.key, weights := weights b.extensions g given }

/-- The entry of an n-gram of the highest order. -/
def longestEntry (g : Gram) (given : GivenWeights) : LongestEntry :=
  { key := g.key, prob := given.prob }

/-- What makes a collection into a model: the checks pass, and each table can be filled. -/
structure Accepted (b : Builder) (settings : TableSettings) : Prop where
  valid : settings.validate = .ok ()
  wellFormed : b.WellFormed
  keyed : ∀ length, 2 ≤ length → length ≤ b.order → b.Keyed length
  fits : ∀ length, 2 ≤ length → length < b.order →
    Table.Fits MiddleEntry (b.ofLength length).length settings
  longestFits : Table.Fits LongestEntry
    (if 1 < b.order then (b.ofLength b.order).length else 0) settings

/-- What the model of a collection holds. -/
structure Built (b : Builder) (m : Model) : Prop where
  vocabulary : m.vocabulary = b.vocabulary
  order : m.store.order = b.order
  unigrams : m.store.unigrams = b.unigrams b.extensions
  middle : ∀ level, level + 2 < b.order → ∃ t, m.store.middle[level]? = some t ∧
    t.Holds (b.entriesOf (level + 2) b.middleEntry)
  longest : 1 < b.order → m.store.longest.Holds (b.entriesOf b.order longestEntry)

theorem size_unigrams : (b.unigrams b.extensions).size = b.vocabulary.bound.toNat :=
  Array.size_ofFn

theorem getElem?_lengths {order level : Nat} (h : level + 2 < order) :
    (List.range' 2 (order - 2))[level]? = some (level + 2) := by
  rw [List.getElem?_range' (by omega)]
  congr 1
  omega

namespace Visit

variable (o : b.Visit) {settings : TableSettings}

theorem middleTables_extensions :
    o.middleTables settings o.extensions = o.middleTables settings b.extensions := by
  simp only [middleTables, o.weights_extensions]

theorem middleTables_eq_ok_iff (hvalid : settings.validate = .ok ()) :
    (∃ ts, o.middleTables settings b.extensions = .ok ts) ↔
      ∀ length, 2 ≤ length → length < b.order →
        Table.Fits MiddleEntry (b.ofLength length).length settings ∧ b.Keyed length := by
  unfold middleTables
  constructor
  · intro h length hlow hhigh
    obtain ⟨ts, hts⟩ := h
    obtain ⟨-, hget⟩ := getElem?_of_mapM hts
    obtain ⟨level, rfl⟩ : ∃ level, length = level + 2 := ⟨length - 2, by omega⟩
    obtain ⟨t, -, ht⟩ := hget level (level + 2) (getElem?_lengths hhigh)
    exact (o.table_eq_ok_iff hvalid fun _ _ => rfl).1 ⟨t, ht⟩
  · intro h
    refine mapM_eq_ok ?_
    intro length hlength
    rw [List.mem_range'_1] at hlength
    exact (o.table_eq_ok_iff hvalid fun _ _ => rfl).2 (h length (by omega) (by omega))

theorem holds_middleTables {ts : List (Table MiddleEntry)} (hvalid : settings.validate = .ok ())
    (h : o.middleTables settings b.extensions = .ok ts) :
    ts.length = b.order - 2 ∧ ∀ level, level + 2 < b.order → ∃ t, ts[level]? = some t ∧
      t.Holds (b.entriesOf (level + 2) b.middleEntry) := by
  obtain ⟨hlen, hget⟩ := getElem?_of_mapM h
  refine ⟨by simpa using hlen, ?_⟩
  intro level hlevel
  obtain ⟨t, ht, htable⟩ := hget level (level + 2) (getElem?_lengths hlevel)
  exact ⟨t, ht, (o.holds_table hvalid htable).1⟩

theorem longestTable_eq_ok_iff (hvalid : settings.validate = .ok ()) :
    (∃ t, o.longestTable settings = .ok t) ↔
      Table.Fits LongestEntry (if 1 < b.order then (b.ofLength b.order).length else 0) settings ∧
        (1 < b.order → b.Keyed b.order) := by
  unfold longestTable
  split
  next h =>
    rw [o.table_eq_ok_iff hvalid fun _ _ => rfl]
    simp [h]
  next h =>
    rw [Table.forEntries_eq_ok_iff hvalid]
    simp [h]

theorem holds_longestTable {t : Table LongestEntry} (hvalid : settings.validate = .ok ())
    (h : o.longestTable settings = .ok t) (hone : 1 < b.order) :
    t.Holds (b.entriesOf b.order longestEntry) ∧
      t.slots.size = Table.bucketsOf (b.ofLength b.order).length settings := by
  rw [longestTable, if_pos hone] at h
  exact o.holds_table hvalid h

/-- The parts that a model is put together from. -/
theorem parts_of_build {m : Model} (h : o.build settings = .ok m) :
    (settings.validate = .ok () ∧ b.WellFormed) ∧ ∃ middle longest,
      o.middleTables settings b.extensions = .ok middle ∧ o.longestTable settings = .ok longest ∧
      m.vocabulary = b.vocabulary ∧ m.store.order = b.order ∧
      m.store.unigrams = b.unigrams b.extensions ∧ m.store.middle = middle.toArray ∧
      m.store.longest = longest := by
  obtain ⟨_, hchecks, h⟩ := exists_of_bind_eq_ok h
  obtain ⟨middle, hmiddle, h⟩ := exists_of_bind_eq_ok h
  obtain ⟨longest, hlongest, h⟩ := exists_of_bind_eq_ok h
  obtain ⟨store, hstore, hmodel⟩ := exists_of_bind_eq_ok h
  rw [o.middleTables_extensions] at hmiddle
  rw [o.unigrams_extensions] at hstore
  obtain ⟨horder, hunigrams, hmiddleEq, hlongestEq⟩ := Store.ofTables_eq_ok_iff.1 hstore
  obtain ⟨hvocabulary, rfl⟩ := Model.ofParts_eq_ok_iff.1 hmodel
  exact ⟨o.validate_eq_ok_iff.1 hchecks, middle, longest, hmiddle, hlongest, hvocabulary, horder,
    hunigrams, hmiddleEq, hlongestEq⟩

/-- What a model holds, if there is one. -/
theorem built_of_build {m : Model} (h : o.build settings = .ok m) :
    b.Accepted settings ∧ b.Built m := by
  obtain ⟨⟨hvalid, hformed⟩, middle, longest, hmiddle, hlongest, hvocabulary, horder, hunigrams,
    hmiddleEq, hlongestEq⟩ := o.parts_of_build h
  have hmiddles := (o.middleTables_eq_ok_iff hvalid).1 ⟨_, hmiddle⟩
  obtain ⟨hlongestFits, hlongestKeyed⟩ := (o.longestTable_eq_ok_iff hvalid).1 ⟨_, hlongest⟩
  obtain ⟨-, hholds⟩ := o.holds_middleTables hvalid hmiddle
  -- what the tables say of each length below the highest, and of that one
  refine ⟨⟨hvalid, hformed, ?_,
    fun length hlow hhigh => (hmiddles length hlow hhigh).1, hlongestFits⟩,
    hvocabulary, horder, hunigrams, ?_, ?_⟩
  · intro length hlow hhigh
    rcases Nat.lt_or_eq_of_le hhigh with hlt | rfl
    · exact (hmiddles length hlow hlt).2
    · exact hlongestKeyed hlow
  · intro level hlevel
    rw [hmiddleEq, List.getElem?_toArray]
    exact hholds level hlevel
  · intro hone
    rw [hlongestEq]
    exact (o.holds_longestTable hvalid hlongest hone).1

/-- The buckets at the highest order. -/
theorem size_longest {m : Model} (h : o.build settings = .ok m) (hone : 1 < b.order) :
    m.store.longest.slots.size = Table.bucketsOf (b.ofLength b.order).length settings := by
  obtain ⟨⟨hvalid, -⟩, _, longest, -, hlongest, -, -, -, -, hlongestEq⟩ := o.parts_of_build h
  rw [hlongestEq]
  exact (o.holds_longestTable hvalid hlongest hone).2

/-- A collection is accepted exactly if its checks pass and its tables can be filled. -/
theorem build_eq_ok_iff : (∃ m, o.build settings = .ok m) ↔ b.Accepted settings := by
  constructor
  · intro h
    obtain ⟨m, hm⟩ := h
    exact (o.built_of_build hm).1
  · intro h
    obtain ⟨middle, hmiddle⟩ := (o.middleTables_eq_ok_iff h.valid).2 fun length hlow hhigh =>
      ⟨h.fits length hlow hhigh, h.keyed length hlow (Nat.le_of_lt hhigh)⟩
    obtain ⟨longest, hlongest⟩ := (o.longestTable_eq_ok_iff h.valid).2
      ⟨h.longestFits, fun hone => h.keyed b.order hone (Nat.le_refl _)⟩
    -- the parts fit together: as many tables as orders between, as many weights as words
    have hsize : middle.toArray.size = b.order - 2 := (o.holds_middleTables h.valid hmiddle).1
    have hbound : 0 < (b.unigrams b.extensions).size ∧ (b.unigrams b.extensions).size < 2 ^ 32 := by
      rw [size_unigrams]
      exact ⟨Nat.lt_of_le_of_lt (Nat.zero_le _)
        (UInt32.lt_iff_toNat_lt.1 h.wellFormed.vocabulary.unknown_lt), b.vocabulary.bound.toNat_lt⟩
    obtain ⟨store, hstore⟩ : ∃ store, Store.ofTables b.order (b.unigrams b.extensions)
        middle.toArray longest = .ok store := by
      rw [Store.ofTables, dif_pos ⟨h.wellFormed.order_pos, h.wellFormed.order_le⟩, dif_pos hsize,
        dif_pos hbound]
      exact ⟨_, rfl⟩
    have hunigrams := (Store.ofTables_eq_ok_iff.1 hstore).2.1
    have hsame : b.vocabulary.bound = store.bound := by
      rw [Store.bound, hunigrams, size_unigrams]
      simp
    obtain ⟨m, hm⟩ : ∃ m, Model.ofParts b.vocabulary store = .ok m := by
      unfold Model.ofParts
      split
      next e he =>
        rw [Vocabulary.validate_eq_ok.2 h.wellFormed.vocabulary] at he
        cases he
      next => exact ⟨_, dif_pos hsame⟩
    refine ⟨m, ?_⟩
    unfold build
    rw [o.validate_eq_ok_iff.2 ⟨h.valid, h.wellFormed⟩]
    simp only [bind, Except.bind, o.middleTables_extensions, o.unigrams_extensions, hmiddle,
      hlongest, hstore]
    exact hm

end Visit

/-- What a model holds, if there is one. -/
theorem built_of_build {settings : TableSettings} {m : Model} (h : b.build settings = .ok m) :
    b.Accepted settings ∧ b.Built m :=
  (Visit.own b).built_of_build ((Visit.build_own b settings).trans h)

/-- A collection is accepted exactly if its checks pass and its tables can be filled. -/
theorem build_eq_ok_iff {settings : TableSettings} :
    (∃ m, b.build settings = .ok m) ↔ b.Accepted settings := by
  rw [← Visit.build_own]
  exact (Visit.own b).build_eq_ok_iff

end Builder

end Ngram
