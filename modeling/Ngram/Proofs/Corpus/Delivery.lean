import Ngram.Corpus.Stream
import Ngram.Proofs.Checks

/-!
# Words from a source and words from a buffer

A source may cut its bytes anywhere, in the middle of a word as well, and pause in between. A word
stream asks it again until a word is whole, so what it delivers depends on the bytes and not on the
cuts. Bytes are taken apart as whole words and a rest that is shorter than a word; from these both
the items of a stream and the words of a buffer are read off.

> `gather_whole`, `gather_rest`: as many bytes as are asked for, or all that are left.
> `items_of_delivers`: a stream delivers one item for each whole word, and a fault for a rest.
> `decode_eq_ok_iff`: a buffer holds some words exactly if a stream over the same bytes delivers
> them and nothing else.
-/

namespace Ngram

namespace Source

/-- A source with some bytes in front of its end: it gives them out in reads that never come back
empty-handed, with any number of pauses before, between and after them. -/
inductive Delivers : Source → Bytes → Prop where
  | ended : Delivers [] []
  | data {front bs : Bytes} {s : Source} : front ≠ [] → Delivers s bs →
      Delivers (.data front :: s) (front ++ bs)
  | interrupted {bs : Bytes} {s : Source} : Delivers s bs → Delivers (.interrupted :: s) bs

/-- How a source closes behind its bytes: at its end, with a read that comes back empty-handed, or
with a failure. What it would do later does not matter. -/
inductive Closes : Source → Option String → Prop where
  | ended : Closes [] none
  | empty (s : Source) : Closes (.data [] :: s) none
  | failed (text : String) (s : Source) : Closes (.failed text :: s) (some text)

variable {front tail : Source} {bs : Bytes} {fault : Option String}

/-- **However a source cuts its bytes**, it gives as many as are asked for. -/
theorem gather_whole (h : front.Delivers bs) (tail : Source) {missing : Nat} (hpos : 0 < missing)
    (hle : missing ≤ bs.length) (done : Bytes) :
    ∃ front',
      gather missing done (front ++ tail) = (.ok (done ++ bs.take missing), front' ++ tail) ∧
      Delivers front' (bs.drop missing) := by
  induction h generalizing missing done with
  | ended =>
    rw [List.length_nil] at hle
    omega
  | interrupted _ ih => exact ih hpos hle done
  | @data chunk bs s hne hs ih =>
    rw [List.length_append] at hle
    rw [List.cons_append, gather]
    rcases Nat.lt_or_ge missing chunk.length with hlt | hge
    · -- some bytes of this read are left for the next one
      obtain ⟨b, rest, hdrop⟩ : ∃ b rest, chunk.drop missing = b :: rest :=
        List.exists_cons_of_ne_nil (by simpa using hlt)
      have htake : (chunk ++ bs).take missing = chunk.take missing :=
        List.take_append_of_le_length (Nat.le_of_lt hlt)
      have hleft : (chunk ++ bs).drop missing = b :: rest ++ bs := by
        rw [List.drop_append_of_le_length (Nat.le_of_lt hlt), hdrop]
      simp only [hdrop, htake, hleft]
      exact ⟨.data (b :: rest) :: s, rfl, .data (by simp) hs⟩
    · have hdrop : chunk.drop missing = [] := List.drop_eq_nil_of_le hge
      have htake : chunk.take missing = chunk := List.take_of_length_le hge
      have hchunk : 0 < chunk.length := List.length_pos_iff.2 hne
      simp only [hdrop, htake]
      by_cases hall : chunk.length = missing
      · -- the read suffices exactly
        subst hall
        exact ⟨s, by simp, by simpa using hs⟩
      · obtain ⟨s', hgather, hleft⟩ :=
          ih (by omega : 0 < missing - chunk.length) (by omega) (done ++ chunk)
        refine ⟨s', ?_, ?_⟩
        · rw [if_neg (by simp [hne, hall]), hgather, List.take_append, htake, List.append_assoc]
        · rwa [List.drop_append, hdrop, List.nil_append]

/-- If too few are left, it gives them all, unless it fails. -/
theorem gather_rest (h : front.Delivers bs) (hclose : tail.Closes fault) {missing : Nat}
    (hlt : bs.length < missing) (done : Bytes) :
    ∃ s, gather missing done (front ++ tail) =
      (fault.elim (.ok (done ++ bs)) fun text => .error (.io text), s) := by
  induction h generalizing missing done with
  | ended =>
    cases hclose with
    | ended => exact ⟨[], by simp [gather]⟩
    | empty s => exact ⟨s, by simp [gather]⟩
    | failed text s => exact ⟨s, rfl⟩
  | interrupted _ ih => exact ih hlt done
  | @data chunk bs s hne hs ih =>
    rw [List.length_append] at hlt
    have hdrop : chunk.drop missing = [] := List.drop_eq_nil_of_le (by omega)
    have htake : chunk.take missing = chunk := List.take_of_length_le (by omega)
    obtain ⟨s', hgather⟩ := ih (by omega : bs.length < missing - chunk.length) (done ++ chunk)
    refine ⟨s', ?_⟩
    rw [List.cons_append, gather]
    simp only [hdrop, htake]
    rw [if_neg (by simp [hne]; omega), hgather, List.append_assoc]

end Source

namespace WordWidth

variable {w : WordWidth} {bs rest : Bytes} {groups : List Bytes}

/-- Bytes taken apart as whole words and a rest that is shorter than a word. -/
structure Splits (w : WordWidth) (bs : Bytes) (groups : List Bytes) (rest : Bytes) : Prop where
  eq : bs = groups.flatten ++ rest
  length_eq : ∀ group ∈ groups, group.length = w.bytes
  length_lt : rest.length < w.bytes

/-- The word that some bytes stand for. -/
def wordOf (group : Bytes) : Except Error Word := toWord (Bytes.toNat group)

/-- A number that is too large for a word is a fault of the input. -/
theorem exists_fault_of_wordOf {group : Bytes} {e : Error} (h : wordOf group = .error e) :
    ∃ fault, e = .input fault := by
  unfold wordOf toWord at h
  split at h
  next => cases h
  next => cases h; exact ⟨_, rfl⟩

theorem exists_splits (w : WordWidth) (bs : Bytes) : ∃ groups rest, w.Splits bs groups rest := by
  have hpos := w.bytes_pos
  generalize hlen : bs.length = n
  induction n using Nat.strongRecOn generalizing bs with
  | ind n ih =>
    rcases Nat.lt_or_ge bs.length w.bytes with hlt | hge
    · exact ⟨[], bs, rfl, by simp, hlt⟩
    · obtain ⟨groups, rest, h⟩ := ih (bs.drop w.bytes).length
        (by rw [List.length_drop]; omega) (bs.drop w.bytes) rfl
      refine ⟨bs.take w.bytes :: groups, rest, ?_, ?_, h.length_lt⟩
      · rw [List.flatten_cons, List.append_assoc, ← h.eq, List.take_append_drop]
      · exact List.forall_mem_cons.2 ⟨List.length_take_of_le hge, h.length_eq⟩

theorem Splits.length_eq_add (h : w.Splits bs groups rest) :
    bs.length = w.bytes * groups.length + rest.length := by
  rw [h.eq, List.length_append, List.length_flatten, List.map_eq_replicate_iff.2 h.length_eq,
    List.sum_replicate_nat, Nat.mul_comm]

/-- The rest is empty if the number of bytes is a multiple of the width, and only then. -/
theorem Splits.length_mod (h : w.Splits bs groups rest) : bs.length % w.bytes = rest.length := by
  rw [h.length_eq_add, Nat.mul_add_mod]
  exact Nat.mod_eq_of_lt h.length_lt

/-- Reading words behind those already read goes through the whole words and leaves the rest. -/
theorem decodeOnto_of_splits (h : w.Splits bs groups rest) (done : List Word) :
    w.decodeOnto done bs = (groups.mapM wordOf).map (done.reverse ++ ·) := by
  obtain ⟨rfl, hgroups, hrest⟩ := h
  induction groups generalizing done with
  | nil =>
    have hnone : Bytes.take? w.bytes rest = none := by
      unfold Bytes.take?
      exact if_neg (by rw [List.length_take]; omega)
    rw [List.flatten_nil, List.nil_append, decodeOnto]
    split
    next => simp [pure, Except.pure, Except.map]
    next h' => rw [hnone] at h'; cases h'
  | cons group groups ih =>
    rw [List.forall_mem_cons] at hgroups
    have hsome : Bytes.take? w.bytes ((group :: groups).flatten ++ rest) =
        some (group, groups.flatten ++ rest) :=
      Bytes.take?_eq_some.2 ⟨hgroups.1, by simp⟩
    rw [decodeOnto]
    split
    next h' => rw [hsome] at h'; cases h'
    next front' rest' h' =>
      rw [hsome] at h'
      cases h'
      rw [List.mapM_cons, wordOf]
      cases toWord (Bytes.toNat group) with
      | error e => rfl
      | ok word =>
        dsimp only
        rw [ih _ hgroups.2]
        cases groups.mapM wordOf with
        | error e => rfl
        | ok words => simp [bind, Except.bind, pure, Except.pure, Except.map]

/-- **Reading a buffer** is reading its whole words, if there is no rest. -/
theorem decode_of_splits (h : w.Splits bs groups rest) :
    w.decode bs = if rest = [] then groups.mapM wordOf
      else .error (.input (.raggedLength bs.length w.bytes)) := by
  rw [decode, h.length_mod, decodeOnto_of_splits h]
  simp only [List.length_eq_zero_iff]
  split
  next => cases groups.mapM wordOf <;> rfl
  next => rfl

end WordWidth

namespace WordStream

variable {w : WordWidth} {s front tail : Source} {bs rest : Bytes} {groups : List Bytes}
  {fault : Option String}

/-- What a stream says of a rest, at some offset. -/
def restItems (w : WordWidth) (offset : Nat) (rest : Bytes) : List (Except Error Word) :=
  if rest = [] then [] else [.error (.input (.partialWord w.bytes offset))]

/-- While a whole word is left, it is the next item. -/
theorem next_whole (h : front.Delivers bs) (tail : Source) (hle : w.bytes ≤ bs.length)
    (offset : Nat) :
    ∃ front', front'.Delivers (bs.drop w.bytes) ∧ next ⟨front ++ tail, w, offset, false⟩ =
      (some (WordWidth.wordOf (bs.take w.bytes)),
        ⟨front' ++ tail, w, offset + w.bytes, false⟩) := by
  obtain ⟨front', hgather, hleft⟩ := Source.gather_whole h tail w.bytes_pos hle []
  refine ⟨front', hleft, ?_⟩
  have hlength : (bs.take w.bytes).length = w.bytes := List.length_take_of_le hle
  rw [List.nil_append] at hgather
  simp only [next, hgather, hlength, Bool.false_eq_true, if_false, Nat.lt_irrefl]
  rw [if_neg (Nat.ne_of_gt w.bytes_pos)]
  rfl

/-- What a stream says when no whole word is left, at some offset: a failure of its source, or a
fault for the rest, or nothing. -/
def lastWord (w : WordWidth) (offset : Nat) (rest : Bytes) :
    Option String → Option (Except Error Word)
  | some text => some (.error (.io text))
  | none => if rest = [] then none else some (.error (.input (.partialWord w.bytes offset)))

/-- The stream stops then. -/
theorem next_rest (h : front.Delivers bs) (hclose : tail.Closes fault)
    (hlt : bs.length < w.bytes) (offset : Nat) :
    ∃ s, next ⟨front ++ tail, w, offset, false⟩ =
      (lastWord w offset bs fault, ⟨s, w, offset, true⟩) := by
  obtain ⟨s, hgather⟩ := Source.gather_rest h hclose hlt []
  refine ⟨s, ?_⟩
  simp only [next, hgather, Bool.false_eq_true, if_false]
  cases fault with
  | some text => rfl
  | none =>
    simp only [Option.elim_none, List.nil_append, List.length_eq_zero_iff, lastWord]
    by_cases hempty : bs = []
    · rw [if_pos hempty, if_pos hempty]
    · rw [if_neg hempty, if_neg hempty, if_pos hlt]

theorem itemsOnto_of_none {stream stream' : WordStream} {done : List (Except Error Word)}
    (h : stream.next = (none, stream')) : stream.itemsOnto done = done.reverse := by
  rw [itemsOnto]
  split
  next => rfl
  next h' => rw [h] at h'; cases h'

theorem itemsOnto_of_some {stream stream' : WordStream} {done : List (Except Error Word)}
    {item : Except Error Word} (h : stream.next = (some item, stream')) :
    stream.itemsOnto done = stream'.itemsOnto (item :: done) := by
  conv => lhs; rw [itemsOnto]
  split
  next h' => rw [h] at h'; cases h'
  next h' => rw [h] at h'; cases h'; rfl

/-- **What a stream delivers**, however the source cuts its bytes: an item for each whole word, and
a fault for a rest. The induction is on the whole words. -/
theorem itemsOnto_of_delivers (h : s.Delivers bs) (hsplits : w.Splits bs groups rest)
    (offset : Nat) (done : List (Except Error Word)) :
    itemsOnto done ⟨s, w, offset, false⟩ = done.reverse ++ (groups.map WordWidth.wordOf ++
      restItems w (offset + w.bytes * groups.length) rest) := by
  have hpos := w.bytes_pos
  obtain ⟨rfl, hgroups, hrest⟩ := hsplits
  induction groups generalizing s offset done with
  | nil =>
    rw [List.flatten_nil, List.nil_append] at h
    obtain ⟨s', hnext⟩ := next_rest (w := w) h .ended hrest offset
    rw [List.append_nil, lastWord] at hnext
    by_cases hempty : rest = []
    · rw [if_pos hempty] at hnext
      rw [itemsOnto_of_none hnext]
      simp [restItems, hempty]
    · rw [if_neg hempty] at hnext
      have hstopped : next ⟨s', w, offset, true⟩ = (none, ⟨s', w, offset, true⟩) := rfl
      rw [itemsOnto_of_some hnext, itemsOnto_of_none hstopped]
      simp [restItems, hempty]
  | cons group groups ih =>
    rw [List.forall_mem_cons] at hgroups
    rw [List.flatten_cons, List.append_assoc] at h
    obtain ⟨s', hleft, hnext⟩ := next_whole (w := w) h []
      (by rw [List.length_append, hgroups.1]; omega) offset
    rw [List.append_nil, List.append_nil, List.take_left' hgroups.1] at hnext
    rw [List.drop_left' hgroups.1] at hleft
    rw [itemsOnto_of_some hnext, ih _ _ hgroups.2 hleft, List.length_cons, Nat.mul_succ,
      Nat.add_assoc offset, Nat.add_comm w.bytes]
    simp

theorem items_of_delivers (h : s.Delivers bs) (hsplits : w.Splits bs groups rest) :
    items { source := s, width := w } =
      groups.map WordWidth.wordOf ++ restItems w (w.bytes * groups.length) rest := by
  have hitems := itemsOnto_of_delivers h hsplits 0 []
  rwa [Nat.zero_add] at hitems

/-- **A buffer holds some words exactly if a stream over its bytes delivers these and nothing
else**, however the source cuts them. -/
theorem decode_eq_ok_iff (h : s.Delivers bs) {words : List Word} :
    w.decode bs = .ok words ↔ items { source := s, width := w } = words.map .ok := by
  obtain ⟨groups, rest, hsplits⟩ := w.exists_splits bs
  rw [WordWidth.decode_of_splits hsplits, items_of_delivers h hsplits, restItems]
  split
  next => rw [mapM_eq_ok_iff, List.append_nil]
  next =>
    refine ⟨nofun, ?_⟩
    intro hitems
    -- the fault for the rest would be a word
    have hmem : .error (.input (.partialWord w.bytes (w.bytes * groups.length))) ∈
        words.map (Except.ok (ε := Error)) := by
      rw [← hitems]
      simp
    simp at hmem

/-- What a stream reports is a fault of its bytes. -/
theorem exists_fault_of_mem_items (h : s.Delivers bs) {e : Error}
    (he : .error e ∈ items { source := s, width := w }) : ∃ fault, e = .input fault := by
  obtain ⟨groups, rest, hsplits⟩ := w.exists_splits bs
  rw [items_of_delivers h hsplits, List.mem_append] at he
  rcases he with hword | hrest
  · obtain ⟨group, -, hgroup⟩ := List.mem_map.1 hword
    exact WordWidth.exists_fault_of_wordOf hgroup
  · unfold restItems at hrest
    split at hrest
    next => cases hrest
    next =>
      rw [List.mem_singleton] at hrest
      cases hrest
      exact ⟨_, rfl⟩

end WordStream

end Ngram
