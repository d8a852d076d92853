import Ngram.Proofs.Model.Content

/-!
# What collections are refused for

A collection that does not become a model is refused for what is wrong with it: its settings, its
vocabulary, its order or its n-grams, and at last a key that is reserved or that two n-grams share.
Where the buckets can be held, nothing else can go wrong. A table is never full, because it has more
buckets than entries, and the parts always fit together.

> `Error.IsModelFault`: faults of a model and of its parts.
> `Error.IsBuildFault`: what a collection is refused for.
> `Visit.isKeyFault_of_build`: if its checks pass, it is refused for its keys.
> `Visit.isBuildFault_of_build`: there is no other error, in whatever order it is visited.
-/

namespace Ngram

/-- Faults of a model and of its parts. -/
inductive Error.IsModelFault : Error → Prop where
  | intro {fault : ModelFault} (h : fault ≠ .imageTooShort) : IsModelFault (.model fault)

/-! ## Parts of a model -/

theorem Vocabulary.isModelFault_of_checkSpecial {v : Vocabulary} {role : Special} {id : Word}
    {e : Error} (he : v.checkSpecial role id = .error e) : e.IsModelFault := by
  unfold checkSpecial at he
  split at he
  next => cases he
  next =>
    cases he
    exact .intro (by simp)

theorem Vocabulary.isModelFault_of_validate {v : Vocabulary} {e : Error}
    (he : v.validate = .error e) : e.IsModelFault := by
  unfold validate at he
  rcases bind_eq_error_iff.1 he with he | ⟨_, -, he⟩
  · exact isModelFault_of_checkSpecial he
  rcases bind_eq_error_iff.1 he with he | ⟨_, -, he⟩
  · exact isModelFault_of_checkSpecial he
  rcases bind_eq_error_iff.1 he with he | ⟨_, -, he⟩
  · exact isModelFault_of_checkSpecial he
  split at he
  next =>
    cases he
    exact .intro (by simp)
  next => cases he

theorem Store.isModelFault_of_ofTables {order : Nat} {unigrams : Array Weights}
    {middle : Array (Table MiddleEntry)} {longest : Table LongestEntry} {e : Error}
    (he : ofTables order unigrams middle longest = .error e) : e.IsModelFault := by
  unfold ofTables at he
  split at he
  next =>
    split at he
    next =>
      split at he
      next => cases he
      next =>
        cases he
        exact .intro (by simp)
    next =>
      cases he
      exact .intro (by simp)
  next =>
    cases he
    exact .intro (by simp)

theorem Model.isModelFault_of_ofParts {vocabulary : Vocabulary} {store : Store} {e : Error}
    (he : ofParts vocabulary store = .error e) : e.IsModelFault := by
  unfold ofParts at he
  split at he
  next hcheck =>
    cases he
    exact Vocabulary.isModelFault_of_validate hcheck
  next =>
    split at he
    next => cases he
    next =>
      cases he
      exact .intro (by simp)

namespace Builder

/-! ## Checks of a collection -/

section Checks

variable {b : Builder} {g : Gram} {e : Error}

theorem isModelFault_of_checkOrder (he : b.checkOrder = .error e) : e.IsModelFault := by
  unfold checkOrder at he
  split at he
  next =>
    cases he
    exact .intro (by simp)
  next =>
    split at he
    next =>
      cases he
      exact .intro (by simp)
    next => cases he

theorem isModelFault_of_checkLengths (he : b.checkLengths = .error e) : e.IsModelFault := by
  obtain ⟨length, -, he⟩ := exists_of_forM_eq_error he
  dsimp only at he
  split at he
  next =>
    cases he
    exact .intro (by simp)
  next => cases he

theorem isModelFault_of_checkUnigram (he : b.checkUnigram g = .error e) : e.IsModelFault := by
  unfold checkUnigram at he
  split at he
  next =>
    cases he
    exact .intro (by simp)
  next => cases he

theorem isModelFault_of_checkGram (he : b.checkGram g = .error e) : e.IsModelFault := by
  unfold checkGram at he
  split at he
  next =>
    cases he
    exact .intro (by simp)
  next =>
    split at he
    next =>
      cases he
      exact .intro (by simp)
    next => cases he

theorem Visit.isModelFault_of_checkGrams {o : b.Visit} (he : o.checkGrams = .error e) :
    e.IsModelFault := by
  rcases bind_eq_error_iff.1 he with he | ⟨_, -, he⟩
  · obtain ⟨_, -, he⟩ := exists_of_forM_eq_error he
    exact isModelFault_of_checkUnigram he
  · obtain ⟨_, -, he⟩ := exists_of_forM_eq_error he
    obtain ⟨_, -, he⟩ := exists_of_forM_eq_error he
    exact isModelFault_of_checkGram he

end Checks

end Builder

/-! ## Building -/

/-- What a collection is refused for. -/
inductive Error.IsBuildFault : Error → Prop where
  | setting (fault : SettingFault) : IsBuildFault (.setting fault)
  | model {fault : ModelFault} (h : fault ≠ .imageTooShort) : IsBuildFault (.model fault)
  | reservedKey : IsBuildFault .reservedKey
  | duplicateKey (key : UInt64) : IsBuildFault (.duplicateKey key)

/-- What the entries of a table are refused for. -/
inductive Error.IsKeyFault : Error → Prop where
  | reservedKey : IsKeyFault .reservedKey
  | duplicateKey (key : UInt64) : IsKeyFault (.duplicateKey key)

theorem Error.IsKeyFault.isBuildFault {e : Error} (h : e.IsKeyFault) : e.IsBuildFault := by
  cases h with
  | reservedKey => exact .reservedKey
  | duplicateKey key => exact .duplicateKey key

theorem Error.IsModelFault.isBuildFault {e : Error} (h : e.IsModelFault) : e.IsBuildFault := by
  obtain ⟨hfault⟩ := h
  exact .model hfault

theorem TableSettings.isBuildFault_of_validate {s : TableSettings} {e : Error}
    (he : s.validate = .error e) : e.IsBuildFault := by
  unfold validate at he
  split at he
  next => cases he
  next =>
    cases he
    exact .setting _

namespace Builder

namespace Visit

variable {b : Builder} (o : b.Visit) {settings : TableSettings} {e : Error}

theorem isBuildFault_of_validate (he : o.validate settings = .error e) : e.IsBuildFault := by
  unfold validate at he
  rcases bind_eq_error_iff.1 he with he | ⟨_, -, he⟩
  · exact TableSettings.isBuildFault_of_validate he
  rcases bind_eq_error_iff.1 he with he | ⟨_, -, he⟩
  · exact (Vocabulary.isModelFault_of_validate he).isBuildFault
  rcases bind_eq_error_iff.1 he with he | ⟨_, -, he⟩
  · exact (isModelFault_of_checkOrder he).isBuildFault
  rcases bind_eq_error_iff.1 he with he | ⟨_, -, he⟩
  · exact (isModelFault_of_checkLengths he).isBuildFault
  · exact (isModelFault_of_checkGrams he).isBuildFault

/-- A table that can be held is refused for the keys of its entries only. -/
theorem isKeyFault_of_table {α : Type} [Entry α] {length : Nat}
    {entry : Gram → GivenWeights → α} (hvalid : settings.validate = .ok ())
    (hfits : Table.Fits α (b.ofLength length).length settings)
    (he : o.table settings length entry = .error e) : e.IsKeyFault := by
  rw [o.table_eq] at he
  have hlength : (o.entriesOf length entry).length = (b.ofLength length).length := by
    rw [(o.perm_entriesOf length entry).length_eq, length_entriesOf]
  rcases Table.filled_eq_error hvalid (hlength ▸ hfits) he with rfl | ⟨key, rfl⟩
  · exact .reservedKey
  · exact .duplicateKey key

theorem isKeyFault_of_longestTable (hvalid : settings.validate = .ok ()) (hroom : b.Room settings)
    (he : o.longestTable settings = .error e) : e.IsKeyFault := by
  have hlongest := hroom.longestFits
  unfold longestTable at he
  split at he
  next hone =>
    rw [if_pos hone] at hlongest
    exact o.isKeyFault_of_table hvalid hlongest he
  next hone =>
    -- an empty table is always made
    rw [if_neg hone] at hlongest
    obtain ⟨t, ht⟩ := (Table.forEntries_eq_ok_iff (α := LongestEntry) hvalid).2 hlongest
    rw [ht] at he
    cases he

/-- A collection that passes its checks, and whose buckets can be held, is refused for its keys
only. -/
theorem isKeyFault_of_build (hvalid : settings.validate = .ok ()) (hformed : b.WellFormed)
    (hroom : b.Room settings) (he : o.build settings = .error e) : e.IsKeyFault := by
  have hrefused := he
  unfold build at he
  rcases bind_eq_error_iff.1 he with he | ⟨_, -, he⟩
  · rw [o.validate_eq_ok_iff.2 ⟨hvalid, hformed⟩] at he
    cases he
  rcases bind_eq_error_iff.1 he with he | ⟨middle, hmiddle, he⟩
  · obtain ⟨length, hlength, he⟩ := exists_of_mapM_eq_error he
    rw [List.mem_range'_1] at hlength
    exact o.isKeyFault_of_table hvalid (hroom.fits length hlength.1 (by omega)) he
  rcases bind_eq_error_iff.1 he with he | ⟨longest, hlongest, he⟩
  · exact o.isKeyFault_of_longestTable hvalid hroom he
  · -- with all tables filled, the parts fit together
    rw [o.middleTables_extensions] at hmiddle
    have hmiddles := (o.middleTables_eq_ok_iff hvalid).1 ⟨_, hmiddle⟩
    obtain ⟨-, hkeyed⟩ := (o.longestTable_eq_ok_iff hvalid).1 ⟨_, hlongest⟩
    have haccepted : b.Accepted settings := by
      refine ⟨hvalid, hformed, ?_, hroom.fits, hroom.longestFits⟩
      intro length hlow hhigh
      rcases Nat.lt_or_eq_of_le hhigh with hlt | rfl
      · exact (hmiddles length hlow hlt).2
      · exact hkeyed hlow
    obtain ⟨m, hm⟩ := o.build_eq_ok_iff.2 haccepted
    rw [hm] at hrefused
    cases hrefused

/-- **There is no other error.** Where the buckets can be held, a collection is refused, in whatever
order it is visited, for its settings, its content or its keys. -/
theorem isBuildFault_of_build (hroom : settings.validate = .ok () → b.Room settings)
    (he : o.build settings = .error e) : e.IsBuildFault := by
  cases hchecks : o.validate settings with
  | ok _ =>
    obtain ⟨hvalid, hformed⟩ := o.validate_eq_ok_iff.1 hchecks
    exact (o.isKeyFault_of_build hvalid hformed (hroom hvalid) he).isBuildFault
  | error fault =>
    unfold build at he
    rw [hchecks] at he
    cases he
    exact o.isBuildFault_of_validate hchecks

end Visit

end Builder

end Ngram
