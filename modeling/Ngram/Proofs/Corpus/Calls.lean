import Ngram.Proofs.Corpus.Delivery
import Ngram.Proofs.Stored.Format

/-!
# A word stream call by call

`WordStream.items` goes through a stream up to the first call that comes back empty-handed. A caller
may go on calling, and asks for the offset in between. Here a stream is followed over any number of
calls: as long as a whole word is left, each call takes one, and the offset with it; the next call
says how the source closed; and all later ones are empty-handed.

> `after_whole`, `after_rest`: the stream behind some calls.
> `getElem?_items`: the items of a stream are what its calls come back with.
> `calls_of_delivers`: each call and each offset, however the source cuts its bytes.
-/

namespace Ngram

namespace WordStream

/-- A stream behind some calls. -/
def after (s : WordStream) : Nat → WordStream
  | 0 => s
  | k + 1 => (s.after k).next.2

/-- A stream that has stopped comes back empty-handed, and stays as it is. -/
theorem next_of_done {s : WordStream} (h : s.done = true) : s.next = (none, s) := by
  rw [next, if_pos h]

/-- A stream that comes back empty-handed has stopped. -/
theorem done_of_next {s s' : WordStream} (h : s.next = (none, s')) : s'.done = true := by
  unfold next at h
  split at h
  next hdone =>
    cases h
    exact hdone
  next =>
    split at h
    next => cases h
    next =>
      split at h
      next =>
        cases h
        rfl
      next => split at h <;> cases h

theorem after_of_done {s : WordStream} (h : s.done = true) (k : Nat) : s.after k = s := by
  induction k with
  | zero => rfl
  | succ k ih => rw [after, ih, next_of_done h]

/-- Some calls and then some more. -/
theorem after_add (s : WordStream) (i j : Nat) : s.after (i + j) = (s.after i).after j := by
  induction j with
  | zero => rfl
  | succ j ih => rw [← Nat.add_assoc, after, ih, after]

/-- What is delivered behind some items does not depend on them. -/
theorem itemsOnto_eq (s : WordStream) (done : List (Except Error Word)) :
    s.itemsOnto done = done.reverse ++ s.items := by
  generalize hsize : s.size = n
  induction n using Nat.strongRecOn generalizing s done with
  | ind n ih =>
    unfold items
    match hnext : s.next with
    | (none, s') => rw [itemsOnto_of_none hnext, itemsOnto_of_none hnext]; simp
    | (some item, s') =>
      have hlt : s'.size < n := hsize ▸ size_next_lt hnext
      rw [itemsOnto_of_some hnext, itemsOnto_of_some hnext, ih _ hlt s' _ rfl, ih _ hlt s' _ rfl]
      simp

theorem items_of_none {s s' : WordStream} (h : s.next = (none, s')) : s.items = [] :=
  itemsOnto_of_none h

theorem items_of_some {s s' : WordStream} {item : Except Error Word}
    (h : s.next = (some item, s')) : s.items = item :: s'.items := by
  rw [items, itemsOnto_of_some h, itemsOnto_eq]
  rfl

/-- **The items of a stream are what its calls come back with.** -/
theorem getElem?_items (s : WordStream) (k : Nat) : s.items[k]? = (s.after k).next.1 := by
  induction k generalizing s with
  | zero =>
    show s.items[0]? = s.next.1
    match hnext : s.next with
    | (none, s') => rw [items_of_none hnext]; rfl
    | (some item, s') => rw [items_of_some hnext]; rfl
  | succ k ih =>
    rw [Nat.add_comm, after_add]
    show s.items[1 + k]? = (s.next.2.after k).next.1
    rw [Nat.add_comm]
    match hnext : s.next with
    | (none, s') =>
      have hdone := done_of_next hnext
      rw [items_of_none hnext, after_of_done hdone, next_of_done hdone]
      rfl
    | (some item, s') => rw [items_of_some hnext, List.getElem?_cons_succ, ih]

variable {w : WordWidth} {front tail : Source} {bs : Bytes} {fault : Option String}

/-- While there are whole words, each call has taken one off the source. -/
theorem after_whole (h : front.Delivers bs) (tail : Source) {k : Nat}
    (hk : k ≤ bs.length / w.bytes) :
    ∃ front', front'.Delivers (bs.drop (k * w.bytes)) ∧
      after { source := front ++ tail, width := w } k =
        ⟨front' ++ tail, w, k * w.bytes, false⟩ := by
  induction k with
  | zero =>
    rw [Nat.zero_mul]
    exact ⟨front, h, rfl⟩
  | succ k ih =>
    obtain ⟨front', hleft, hafter⟩ := ih (Nat.le_of_succ_le hk)
    have hwhole : (k + 1) * w.bytes ≤ bs.length := (Nat.le_div_iff_mul_le w.bytes_pos).1 hk
    rw [Nat.succ_mul] at hwhole
    obtain ⟨front'', hleft', hnext⟩ := next_whole hleft tail
      (by rw [List.length_drop]; omega : w.bytes ≤ _) (k * w.bytes)
    rw [List.drop_drop] at hleft'
    rw [Nat.succ_mul]
    exact ⟨front'', hleft', by rw [after, hafter, hnext]⟩

theorem length_rest (w : WordWidth) (bs : Bytes) :
    (bs.drop (bs.length / w.bytes * w.bytes)).length = bs.length % w.bytes := by
  have := Nat.div_add_mod' bs.length w.bytes
  rw [List.length_drop]
  omega

/-- The call behind the whole words says how the source closed. -/
theorem next_after_whole (h : front.Delivers bs) (hclose : tail.Closes fault) (w : WordWidth) :
    let offset := bs.length / w.bytes * w.bytes
    ∃ s, (after { source := front ++ tail, width := w } (bs.length / w.bytes)).next =
      (lastWord w offset (bs.drop offset) fault, ⟨s, w, offset, true⟩) := by
  intro offset
  obtain ⟨front', hleft, hafter⟩ := after_whole (w := w) h tail (Nat.le_refl _)
  have hrest : (bs.drop offset).length < w.bytes := by
    rw [length_rest]
    exact Nat.mod_lt _ w.bytes_pos
  rw [hafter]
  exact next_rest hleft hclose hrest offset

/-- Behind it the stream has stopped. -/
theorem after_rest (h : front.Delivers bs) (hclose : tail.Closes fault) {k : Nat}
    (hk : bs.length / w.bytes < k) :
    ∃ s, after { source := front ++ tail, width := w } k =
      ⟨s, w, bs.length / w.bytes * w.bytes, true⟩ := by
  obtain ⟨s, hnext⟩ := next_after_whole h hclose w
  refine ⟨s, ?_⟩
  have hstopped : after { source := front ++ tail, width := w } (bs.length / w.bytes + 1) =
      ⟨s, w, bs.length / w.bytes * w.bytes, true⟩ := by
    rw [after, hnext]
  obtain ⟨more, rfl⟩ := Nat.exists_eq_add_of_le hk
  rw [after_add, hstopped, after_of_done rfl]

/-- What call number `k` comes back with: a whole word, what the stream says behind the last of
them, or nothing. -/
def call (w : WordWidth) (bs : Bytes) (fault : Option String) (k : Nat) :
    Option (Except Error Word) :=
  let n := bs.length / w.bytes
  if k < n then some (WordWidth.wordOf ((bs.drop (k * w.bytes)).take w.bytes))
  else if k = n then lastWord w (n * w.bytes) (bs.drop (n * w.bytes)) fault
  else none

/-- **What a call comes back with depends on the bytes** and on how the source closes, and not on
how it cuts them. -/
theorem fst_next_after (h : front.Delivers bs) (hclose : tail.Closes fault) (w : WordWidth)
    (k : Nat) :
    (after { source := front ++ tail, width := w } k).next.1 = call w bs fault k := by
  unfold call
  rcases Nat.lt_trichotomy k (bs.length / w.bytes) with hlt | heq | hgt
  · obtain ⟨front', hleft, hafter⟩ := after_whole (w := w) h tail (Nat.le_of_lt hlt)
    have hwhole : (k + 1) * w.bytes ≤ bs.length := (Nat.le_div_iff_mul_le w.bytes_pos).1 hlt
    rw [Nat.succ_mul] at hwhole
    obtain ⟨front'', -, hnext⟩ := next_whole hleft tail
      (by rw [List.length_drop]; omega : w.bytes ≤ _) (k * w.bytes)
    rw [hafter, hnext]
    exact (if_pos hlt).symm
  · subst heq
    obtain ⟨s, hnext⟩ := next_after_whole h hclose w
    rw [hnext]
    simp
  · obtain ⟨s, hafter⟩ := after_rest (w := w) h hclose hgt
    rw [hafter, next_of_done rfl]
    simp only [if_neg (Nat.lt_asymm hgt), if_neg (Nat.ne_of_gt hgt)]

/-- Nothing that comes behind an empty read is delivered. -/
theorem items_of_closes (h : front.Delivers bs) (hclose : tail.Closes none) (w : WordWidth) :
    items { source := front ++ tail, width := w } = items { source := front, width := w } := by
  apply List.ext_getElem?
  intro k
  have hended := fst_next_after h .ended w k
  rw [List.append_nil] at hended
  rw [getElem?_items, getElem?_items, fst_next_after h hclose, hended]

/-- A number that takes more than a word is in eight bytes. -/
theorem eq_eight_of_le {group : Bytes} (hlength : group.length ≤ w.bytes)
    (hlarge : 2 ^ 32 ≤ Bytes.toNat group) : w = .eight := by
  have hlt := Bytes.toNat_lt group
  cases w with
  | eight => rfl
  | one | two | four =>
    have hle : 256 ^ group.length ≤ 256 ^ 4 :=
      Nat.pow_le_pow_right (by decide) (Nat.le_trans hlength (by decide))
    omega

/-- **A stream call by call**, however a source cuts its bytes, and however often it pauses. Call
number `k` takes the `k`-th group of bytes as a word, and reports in its place a number that is too
large, which takes eight bytes. Behind the last whole group the failure of the source is reported,
or a rest that is no whole word; all other calls are empty-handed. The offset is that of the whole
groups taken so far, and stays at the last of them. What is collected up to the first error is what
a buffer of the same bytes is read as, if the source does not fail. -/
theorem calls_of_delivers (h : front.Delivers bs) (hclose : tail.Closes fault) (w : WordWidth) :
    let stream : WordStream := { source := front ++ tail, width := w }
    let n := bs.length / w.bytes
    (∀ k, (stream.after k).offset = min k n * w.bytes) ∧
    (∀ k < n, let value := Bytes.toNat ((bs.drop (k * w.bytes)).take w.bytes)
      (value < 2 ^ 32 → (stream.after k).next.1 = some (.ok value.toUInt32)) ∧
      (2 ^ 32 ≤ value → w = .eight ∧
        (stream.after k).next.1 = some (.error (.input (.wordTooLarge value))))) ∧
    (∀ text, fault = some text → (stream.after n).next.1 = some (.error (.io text))) ∧
    (fault = none → (stream.after n).next.1 =
      if bs.length % w.bytes = 0 then none
      else some (.error (.input (.partialWord w.bytes (n * w.bytes))))) ∧
    (∀ k > n, (stream.after k).next.1 = none) ∧
    (∀ k, stream.items[k]? = (stream.after k).next.1) ∧
    (fault = none → ∀ words, stream.items.mapM id = .ok words ↔ w.decode bs = .ok words) := by
  intro stream n
  have hlast : (stream.after n).next.1 =
      lastWord w (n * w.bytes) (bs.drop (n * w.bytes)) fault := by
    rw [fst_next_after h hclose, call, if_neg (Nat.lt_irrefl _), if_pos rfl]
  refine ⟨?_, ?_, ?_, ?_, ?_, getElem?_items stream, ?_⟩
  · intro k
    rcases Nat.lt_or_ge n k with hlt | hge
    · obtain ⟨s, hafter⟩ := after_rest (w := w) h hclose hlt
      rw [hafter, Nat.min_eq_right (Nat.le_of_lt hlt)]
    · obtain ⟨front', -, hafter⟩ := after_whole (w := w) h tail hge
      rw [hafter, Nat.min_eq_left hge]
  · intro k hk value
    have hcall : (stream.after k).next.1 = some (WordWidth.toWord value) := by
      rw [fst_next_after h hclose, call, if_pos hk]
      rfl
    rw [hcall, WordWidth.toWord]
    constructor
    · intro hsmall
      rw [if_pos hsmall]
    · intro hlarge
      rw [if_neg (Nat.not_lt_of_le hlarge)]
      exact ⟨eq_eight_of_le (List.length_take_le _ _) hlarge, rfl⟩
  · rintro text rfl
    exact hlast
  · rintro rfl
    rw [hlast, lastWord]
    simp only [← List.length_eq_zero_iff, n, length_rest]
  · intro k hk
    rw [fst_next_after h hclose, call, if_neg (Nat.lt_asymm hk), if_neg (Nat.ne_of_gt hk)]
  · rintro rfl words
    rw [items_of_closes h hclose, mapM_eq_ok_iff, List.map_id, decode_eq_ok_iff h]

/-- A number that is too large, a word and the beginning of another one, cut inside of each. -/
theorem calls_of_delivers_cut :
    let front : Source := [.data [0, 0, 0], .interrupted, .data [0, 1, 0, 0, 0, 5], .interrupted,
      .data [0, 0, 0, 0, 0, 0, 0, 3]]
    let bs : Bytes := [0, 0, 0, 0, 1, 0, 0, 0, 5, 0, 0, 0, 0, 0, 0, 0, 3]
    let stream : WordStream := { source := front ++ [.data [], .data [9]], width := .eight }
    (front.Delivers bs ∧ Source.Closes [.data [], .data [9]] none) ∧
      (stream.after 0).next.1 = some (.error (.input (.wordTooLarge (2 ^ 32)))) ∧
      (stream.after 1).next.1 = some (.ok 5) ∧
      (stream.after 2).next.1 = some (.error (.input (.partialWord 8 16))) ∧
      (stream.after 3).next.1 = none ∧ (stream.after 100).offset = 16 := by
  intro front bs stream
  have hdelivers : front.Delivers bs :=
    .data (by decide) (.interrupted (.data (by decide) (.interrupted (.data (by decide) .ended))))
  have hcloses : Source.Closes [.data [], .data [9]] none := .empty _
  obtain ⟨hoffset, hwords, -, hrest, hnone, -, -⟩ := calls_of_delivers hdelivers hcloses .eight
  have hgroups : bs.length / WordWidth.eight.bytes = 2 := by decide
  have hrest := hrest rfl
  rw [hgroups, if_neg (by decide)] at hrest
  have hoffset : (stream.after 100).offset = 16 := (hoffset 100).trans (by decide)
  exact ⟨⟨hdelivers, hcloses⟩, ((hwords 0 (by decide)).2 (by decide)).2,
    (hwords 1 (by decide)).1 (by decide), hrest, hnone 3 (by decide), hoffset⟩

end WordStream

end Ngram
