import Ngram.Proofs.Corpus.Delivery
import Ngram.Proofs.Stored.Format

/-!
# Writing words and reading them

Writing refuses a word that is too large for the width; reading refuses a length that is no multiple
of the width, and a number that is too large for a word. Apart from that both are the same relation,
read from either side: the bytes are one group for each word, least significant byte first. So a
corpus can be written in one way only, and what is written is what is read.

> `encode_eq_ok_iff`, `decode_eq_ok_iff_groups`: the bytes that stand for some words.
> `encode_eq_error_iff`, `decode_eq_error_iff`: what is reported otherwise.
> `fits_forBound`, `bytes_forBound_le`: the width for a bound holds what is below it, and no
> narrower one does.
> `codec_bijective`: all of this together.
-/

namespace Ngram

namespace WordWidth

variable {w : WordWidth} {bs rest : Bytes} {groups : List Bytes} {words : List Word} {word : Word}

/-- A number fits a width if that many bytes hold it. -/
def Fits (w : WordWidth) (value : Nat) : Prop := value < 256 ^ w.bytes

instance (value : Nat) : Decidable (w.Fits value) :=
  inferInstanceAs (Decidable (value < 256 ^ w.bytes))

/-- The bytes of one word. -/
def group (w : WordWidth) (word : Word) : Bytes := Bytes.ofNat w.bytes word.toNat

/-- The number that group `i` of some bytes stands for. -/
def valueAt (w : WordWidth) (bs : Bytes) (i : Nat) : Nat :=
  Bytes.toNat ((bs.drop (i * w.bytes)).take w.bytes)

/-! ## One word -/

theorem le_maxValue_iff {value : Nat} : value ≤ w.maxValue ↔ w.Fits value := by
  have hpow : 2 ^ (8 * w.bytes) = 256 ^ w.bytes := Nat.pow_mul 2 8 w.bytes
  have hpos : 0 < 256 ^ w.bytes := Nat.pow_pos (by decide)
  rw [maxValue, hpow, Fits]
  omega

theorem encodeWord_of_fits (h : w.Fits word.toNat) : w.encodeWord word = .ok (w.group word) :=
  if_pos (le_maxValue_iff.2 h)

theorem encodeWord_of_not_fits (h : ¬ w.Fits word.toNat) :
    w.encodeWord word = .error (.input (.wordTooWide word w.bytes)) :=
  if_neg fun hle => h (le_maxValue_iff.1 hle)

theorem fits_of_encodeWord {g : Bytes} (h : w.encodeWord word = .ok g) : w.Fits word.toNat := by
  unfold encodeWord at h
  split at h
  next hle => exact le_maxValue_iff.1 hle
  next => cases h

theorem length_group (w : WordWidth) (word : Word) : (w.group word).length = w.bytes :=
  Bytes.length_ofNat _ _

theorem wordOf_of_lt {g : Bytes} (h : Bytes.toNat g < 2 ^ 32) :
    wordOf g = .ok (Bytes.toNat g).toUInt32 := if_pos h

theorem wordOf_of_le {g : Bytes} (h : 2 ^ 32 ≤ Bytes.toNat g) :
    wordOf g = .error (.input (.wordTooLarge (Bytes.toNat g))) := if_neg (Nat.not_lt_of_le h)

theorem wordOf_eq_ok_iff {g : Bytes} : wordOf g = .ok word ↔ Bytes.toNat g = word.toNat := by
  rcases Nat.lt_or_ge (Bytes.toNat g) (2 ^ 32) with hlt | hge
  · rw [wordOf_of_lt hlt, Except.ok.injEq, ← UInt32.toNat_inj, Nat.toUInt32_eq,
      UInt32.toNat_ofNat_of_lt' hlt]
  · have := word.toNat_lt
    rw [wordOf_of_le hge]
    exact ⟨nofun, fun heq => by omega⟩

/-- **One word.** The bytes that a word is written as are the only ones that are read as it. -/
theorem wordOf_iff_group {g : Bytes} (hlength : g.length = w.bytes) :
    wordOf g = .ok word ↔ w.Fits word.toNat ∧ g = w.group word := by
  rw [wordOf_eq_ok_iff]
  constructor
  · intro h
    have hlt := Bytes.toNat_lt g
    rw [h, hlength] at hlt
    refine ⟨hlt, ?_⟩
    rw [group, ← h, ← hlength, Bytes.ofNat_toNat]
  · intro h
    obtain ⟨hfits, rfl⟩ := h
    exact Bytes.toNat_ofNat hfits

/-! ## Writing -/

/-- Words are written behind those already written, one by one. -/
theorem encodeOnto_eq (done : Bytes) : w.encodeOnto done words =
    (words.mapM w.encodeWord).map fun groups => done.reverse ++ groups.flatten := by
  induction words generalizing done with
  | nil => simp [encodeOnto, pure, Except.pure, Except.map]
  | cons word words ih =>
    rw [encodeOnto, List.mapM_cons]
    cases w.encodeWord word with
    | error e => rfl
    | ok g =>
      dsimp only
      rw [ih]
      cases words.mapM w.encodeWord with
      | error e => rfl
      | ok groups => simp [bind, Except.bind, pure, Except.pure, Except.map]

theorem encode_eq : w.encode words = (words.mapM w.encodeWord).map List.flatten :=
  encodeOnto_eq []

theorem mapM_encodeWord (h : ∀ word ∈ words, w.Fits word.toNat) :
    words.mapM w.encodeWord = .ok (words.map w.group) := by
  rw [mapM_eq_ok_iff, List.map_map]
  exact List.map_congr_left fun word hword => encodeWord_of_fits (h word hword)

/-- The first word that does not fit is reported. -/
theorem encode_eq_error_iff {e : Error} : w.encode words = .error e ↔
    ∃ front word behind, words = front ++ word :: behind ∧ (∀ x ∈ front, w.Fits x.toNat) ∧
      ¬ w.Fits word.toNat ∧ e = .input (.wordTooWide word w.bytes) := by
  rw [encode_eq, map_eq_error_iff, mapM_eq_error_iff]
  constructor
  · intro h
    obtain ⟨front, word, behind, rfl, hfront, hword⟩ := h
    refine ⟨front, word, behind, rfl, fun x hx => ?_, ?_⟩
    · obtain ⟨g, hg⟩ := hfront x hx
      exact fits_of_encodeWord hg
    · by_cases hfits : w.Fits word.toNat
      · rw [encodeWord_of_fits hfits] at hword
        cases hword
      · rw [encodeWord_of_not_fits hfits] at hword
        cases hword
        exact ⟨hfits, rfl⟩
  · intro h
    obtain ⟨front, word, behind, rfl, hfront, hnot, rfl⟩ := h
    exact ⟨front, word, behind, rfl, fun x hx => ⟨_, encodeWord_of_fits (hfront x hx)⟩,
      encodeWord_of_not_fits hnot⟩

/-- **Which bytes some words are written as.** -/
theorem encode_eq_ok_iff : w.encode words = .ok bs ↔
    (∀ word ∈ words, w.Fits word.toNat) ∧ bs = (words.map w.group).flatten := by
  by_cases hfits : ∀ word ∈ words, w.Fits word.toNat
  · rw [encode_eq, mapM_encodeWord hfits]
    show Except.ok _ = Except.ok bs ↔ _
    rw [Except.ok.injEq]
    exact ⟨fun h => ⟨hfits, h.symm⟩, fun h => h.2.symm⟩
  · constructor
    · intro h
      rw [encode_eq, map_eq_ok_iff] at h
      obtain ⟨groups, hgroups, -⟩ := h
      refine absurd (fun word hword => ?_) hfits
      have hmem : w.encodeWord word ∈ groups.map .ok :=
        mapM_eq_ok_iff.1 hgroups ▸ List.mem_map_of_mem hword
      obtain ⟨g, -, hg⟩ := List.mem_map.1 hmem
      exact fits_of_encodeWord hg.symm
    · intro h
      exact absurd h.1 hfits

/-! ## Reading -/

/-- Written words are whole groups of bytes, with nothing behind them. -/
theorem splits_group (w : WordWidth) (words : List Word) :
    w.Splits (words.map w.group).flatten (words.map w.group) [] where
  eq := (List.append_nil _).symm
  length_eq := by
    intro g hg
    obtain ⟨word, -, rfl⟩ := List.mem_map.1 hg
    exact w.length_group word
  length_lt := w.bytes_pos

/-- Groups of bytes are read as some words if they are what these are written as, and only then. -/
theorem map_wordOf_iff (hlength : ∀ g ∈ groups, g.length = w.bytes) :
    groups.map wordOf = words.map .ok ↔
      (∀ word ∈ words, w.Fits word.toNat) ∧ groups = words.map w.group := by
  induction groups generalizing words with
  | nil => cases words <;> simp
  | cons g groups ih =>
    cases words with
    | nil => simp
    | cons word words =>
      rw [List.forall_mem_cons] at hlength
      simp only [List.map_cons, List.cons.injEq, wordOf_iff_group hlength.1, ih hlength.2,
        List.forall_mem_cons]
      exact and_and_and_comm

/-- **Which words some bytes are read as**: those that are written as these bytes. -/
theorem decode_eq_ok_iff_groups : w.decode bs = .ok words ↔
    (∀ word ∈ words, w.Fits word.toNat) ∧ bs = (words.map w.group).flatten := by
  constructor
  · intro h
    obtain ⟨groups, rest, hsplits⟩ := w.exists_splits bs
    rw [decode_of_splits hsplits] at h
    split at h
    next hrest =>
      obtain ⟨hfits, rfl⟩ := (map_wordOf_iff hsplits.length_eq).1 (mapM_eq_ok_iff.1 h)
      refine ⟨hfits, ?_⟩
      rw [hsplits.eq, hrest, List.append_nil]
    next => cases h
  · intro h
    obtain ⟨hfits, rfl⟩ := h
    have hsplits := splits_group w words
    rw [decode_of_splits hsplits, if_pos rfl, mapM_eq_ok_iff]
    exact (map_wordOf_iff hsplits.length_eq).2 ⟨hfits, rfl⟩

theorem Splits.length_groups (h : w.Splits bs groups rest) :
    groups.length = bs.length / w.bytes := by
  rw [h.length_eq_add, Nat.mul_add_div w.bytes_pos, Nat.div_eq_of_lt h.length_lt, Nat.add_zero]

/-- The groups of some bytes are found at the multiples of the width. -/
theorem Splits.getElem?_eq (h : w.Splits bs groups rest) {i : Nat} {g : Bytes}
    (hg : groups[i]? = some g) : (bs.drop (i * w.bytes)).take w.bytes = g := by
  obtain ⟨rfl, hlength, hrest⟩ := h
  induction groups generalizing i with
  | nil => cases hg
  | cons g' groups ih =>
    rw [List.forall_mem_cons] at hlength
    rw [List.flatten_cons, List.append_assoc]
    cases i with
    | zero =>
      cases hg
      rw [Nat.zero_mul, List.drop_zero, List.take_left' hlength.1]
    | succ i =>
      rw [Nat.succ_mul, Nat.add_comm, ← List.drop_drop, List.drop_left' hlength.1]
      exact ih hg hlength.2

theorem Splits.valueAt_eq (h : w.Splits bs groups rest) {i : Nat} {g : Bytes}
    (hg : groups[i]? = some g) : w.valueAt bs i = Bytes.toNat g :=
  congrArg Bytes.toNat (h.getElem?_eq hg)

/-- Bytes whose number is a multiple of the width have nothing behind their groups. -/
theorem exists_groups (h : bs.length % w.bytes = 0) : ∃ groups, w.Splits bs groups [] := by
  obtain ⟨groups, rest, hsplits⟩ := w.exists_splits bs
  rw [hsplits.length_mod, List.length_eq_zero_iff] at h
  subst h
  exact ⟨groups, hsplits⟩

theorem decode_of_groups (h : w.Splits bs groups []) : w.decode bs = groups.mapM wordOf := by
  rw [decode_of_splits h, if_pos rfl]

theorem decode_of_ragged (h : bs.length % w.bytes ≠ 0) :
    w.decode bs = .error (.input (.raggedLength bs.length w.bytes)) := if_neg h

/-- **How reading fails**: at a length that is no multiple of the width, which is seen first, and
else at the first number that is too large for a word. -/
theorem decode_eq_error_iff {e : Error} : w.decode bs = .error e ↔
    if bs.length % w.bytes = 0 then
      ∃ i < bs.length / w.bytes, (∀ j < i, w.valueAt bs j < 2 ^ 32) ∧ 2 ^ 32 ≤ w.valueAt bs i ∧
        e = .input (.wordTooLarge (w.valueAt bs i))
    else e = .input (.raggedLength bs.length w.bytes) := by
  split
  next hlength =>
    obtain ⟨groups, hsplits⟩ := exists_groups hlength
    rw [decode_of_groups hsplits, ← hsplits.length_groups, mapM_eq_error_iff]
    constructor
    · intro h
      obtain ⟨front, g, behind, rfl, hfront, hg⟩ := h
      have hvalue : w.valueAt bs front.length = Bytes.toNat g := hsplits.valueAt_eq (by simp)
      refine ⟨front.length, by simp, fun j hj => ?_, ?_⟩
      · have hget : (front ++ g :: behind)[j]? = some front[j] := by
          rw [List.getElem?_append_left hj, List.getElem?_eq_getElem hj]
        obtain ⟨word, hword⟩ := hfront _ (List.getElem_mem hj)
        rw [hsplits.valueAt_eq hget, wordOf_eq_ok_iff.1 hword]
        exact word.toNat_lt
      · rw [hvalue]
        rcases Nat.lt_or_ge (Bytes.toNat g) (2 ^ 32) with hlt | hge
        · rw [wordOf_of_lt hlt] at hg
          cases hg
        · rw [wordOf_of_le hge] at hg
          cases hg
          exact ⟨hge, rfl⟩
    · intro h
      obtain ⟨i, hi, hbefore, hlarge, rfl⟩ := h
      rw [hsplits.valueAt_eq (List.getElem?_eq_getElem hi)] at hlarge ⊢
      refine ⟨groups.take i, groups[i], groups.drop (i + 1), ?_, fun g hg => ?_,
        wordOf_of_le hlarge⟩
      · rw [← List.drop_eq_getElem_cons hi, List.take_append_drop]
      · obtain ⟨j, hj, rfl⟩ := List.mem_take_iff_getElem.1 hg
        have hsmall := hbefore j (by omega)
        rw [hsplits.valueAt_eq (List.getElem?_eq_getElem (by omega))] at hsmall
        exact ⟨_, wordOf_of_lt hsmall⟩
  next hlength => rw [decode_of_ragged hlength, Except.error.injEq, eq_comm]

/-- **When reading succeeds.** -/
theorem exists_decode_iff : (∃ words, w.decode bs = .ok words) ↔
    bs.length % w.bytes = 0 ∧ ∀ i < bs.length / w.bytes, w.valueAt bs i < 2 ^ 32 := by
  constructor
  · intro h
    obtain ⟨words, hwords⟩ := h
    have hlength : bs.length % w.bytes = 0 := by
      by_cases hlength : bs.length % w.bytes = 0
      · exact hlength
      · rw [decode_of_ragged hlength] at hwords
        cases hwords
    refine ⟨hlength, fun i hi => ?_⟩
    obtain ⟨groups, hsplits⟩ := exists_groups hlength
    rw [decode_of_groups hsplits] at hwords
    rw [← hsplits.length_groups] at hi
    have hget := List.getElem?_eq_getElem hi
    obtain ⟨word, -, hword⟩ := (getElem?_of_mapM hwords).2 i _ hget
    rw [hsplits.valueAt_eq hget, wordOf_eq_ok_iff.1 hword]
    exact word.toNat_lt
  · intro h
    obtain ⟨groups, hsplits⟩ := exists_groups h.1
    rw [decode_of_groups hsplits]
    refine mapM_eq_ok fun g hg => ?_
    obtain ⟨i, hi, rfl⟩ := List.mem_iff_getElem.1 hg
    have hsmall := h.2 i (hsplits.length_groups ▸ hi)
    rw [hsplits.valueAt_eq (List.getElem?_eq_getElem hi)] at hsmall
    exact ⟨_, wordOf_of_lt hsmall⟩

/-! ## The width for a bound -/

/-- The width for a bound holds all words below it. -/
theorem fits_forBound {bound : Nat} (h : word.toNat < bound) :
    (forBound bound).Fits word.toNat := by
  have := word.toNat_lt
  unfold forBound Fits
  split
  next => show _ < 256 ^ 1; omega
  next =>
    split
    next => show _ < 256 ^ 2; omega
    next =>
      split
      next => show _ < 256 ^ 4; omega
      next => show _ < 256 ^ 8; omega

theorem bytes_le_eight (w : WordWidth) : w.bytes ≤ 8 := by cases w <;> decide

/-- A width that holds all numbers below a bound is as wide as that for the bound, at least. -/
theorem bytes_forBound_le {bound : Nat} (h : bound ≤ 256 ^ w.bytes) :
    (forBound bound).bytes ≤ w.bytes := by
  unfold forBound
  cases w with
  | one =>
    have h : bound ≤ 2 ^ 8 := h
    exact Nat.le_of_eq (congrArg bytes (if_pos h))
  | two =>
    have h : bound ≤ 2 ^ 16 := h
    rw [if_pos h]
    split
    next => decide
    next => exact Nat.le_refl _
  | four =>
    have h : bound ≤ 2 ^ 32 := h
    rw [if_pos h]
    split
    next => decide
    next =>
      split
      next => decide
      next => exact Nat.le_refl _
  | eight => exact bytes_le_eight _

/-- A corpus over a vocabulary can be written at the width for its bound, and is read back. -/
theorem exists_encode_widthOf {bound : Word} (h : ∀ word ∈ words, word < bound) :
    ∃ bs, (widthOf bound).encode words = .ok bs ∧ (widthOf bound).decode bs = .ok words := by
  have hfits : ∀ word ∈ words, (widthOf bound).Fits word.toNat :=
    fun word hword => fits_forBound (UInt32.lt_iff_toNat_lt.1 (h word hword))
  exact ⟨_, encode_eq_ok_iff.2 ⟨hfits, rfl⟩, decode_eq_ok_iff_groups.2 ⟨hfits, rfl⟩⟩

/-- **Writing and reading are inverse to each other**, as far as they succeed. Writing succeeds if
all words fit the width, reading if the bytes are whole groups with numbers that are no larger than
words. The width for a bound holds all words below it, so that they can always be written; no
narrower width holds the last of these numbers. -/
theorem codec_bijective (w : WordWidth) :
    (∀ (words : List Word) (bs : Bytes), w.encode words = .ok bs ↔ w.decode bs = .ok words) ∧
    (∀ words : List Word, (∃ bs, w.encode words = .ok bs) ↔ ∀ word ∈ words, w.Fits word.toNat) ∧
    (∀ bs : Bytes, (∃ words, w.decode bs = .ok words) ↔
      bs.length % w.bytes = 0 ∧ ∀ i < bs.length / w.bytes, w.valueAt bs i < 2 ^ 32) ∧
    ∀ bound : Nat, (∀ word : Word, word.toNat < bound → (forBound bound).Fits word.toNat) ∧
      (1 ≤ bound → ∀ narrower : WordWidth, narrower.bytes < (forBound bound).bytes →
        ¬ narrower.Fits (bound - 1)) := by
  refine ⟨fun words bs => ?_, fun words => ?_, fun bs => exists_decode_iff, fun bound => ⟨?_, ?_⟩⟩
  · rw [encode_eq_ok_iff, decode_eq_ok_iff_groups]
  · constructor
    · intro h
      obtain ⟨bs, hbs⟩ := h
      exact (encode_eq_ok_iff.1 hbs).1
    · intro h
      exact ⟨_, encode_eq_ok_iff.2 ⟨h, rfl⟩⟩
  · exact fun word hword => fits_forBound hword
  · intro hpos narrower hlt hfits
    have hholds : bound ≤ 256 ^ narrower.bytes := by
      unfold Fits at hfits
      omega
    exact absurd (bytes_forBound_le hholds) (Nat.not_le_of_lt hlt)

/-- On both sides of the boundaries: the largest word of one byte and the least one of two, the
least number of eight bytes that is no word, and a bound that is just too large for one byte. -/
theorem codec_bijective_boundary :
    (∃ bs, one.encode [0, 255] = .ok bs) ∧ (¬ ∃ bs, one.encode [0, 256] = .ok bs) ∧
      two.encode [255, 256] = .ok [255, 0, 0, 1] ∧ two.decode [255, 0, 0, 1] = .ok [255, 256] ∧
      (¬ ∃ words, eight.decode [0, 0, 0, 0, 1, 0, 0, 0] = .ok words) ∧
      forBound 257 = two ∧ two.Fits (256 : Word).toNat ∧ ¬ one.Fits 256 := by
  have hwritten : two.encode [255, 256] = .ok [255, 0, 0, 1] := rfl
  obtain ⟨-, hone, -, hbound⟩ := codec_bijective one
  obtain ⟨hfits, hnarrower⟩ := hbound 257
  have hnot : ¬ one.Fits 256 := hnarrower (by decide) one (by decide)
  refine ⟨(hone _).2 (List.forall_mem_cons.2 ⟨by decide, List.forall_mem_singleton.2 (by decide)⟩),
    fun h => hnot ((hone _).1 h 256 (by simp)), hwritten,
    ((codec_bijective two).1 _ _).1 hwritten, fun h => ?_, rfl, hfits 256 (by decide), hnot⟩
  obtain ⟨-, hsmall⟩ := ((codec_bijective eight).2.2.1 _).1 h
  exact absurd (hsmall 0 (by decide)) (by decide)

end WordWidth

end Ngram
