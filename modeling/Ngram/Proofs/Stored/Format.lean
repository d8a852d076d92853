import Ngram.Bytes

/-!
# Stored forms

A reader and a writer belong together if reading takes exactly what writing puts. A `Format` says so
of the values that can be stored, and adds that a reader decides by what it takes: bytes that follow
change nothing, unless there were too few.

> `Format.read_of_cut`: a written value that was cut anywhere is too short, and nothing worse.
> `Format.bind`: one part behind the other, where the second may depend on what the first one was.
> `format_nat`, `format_array`: numbers of fixed width, and lists with their length in front.
-/

namespace Ngram

namespace Bytes

variable {α β : Type}

/-- What is read when some bytes follow: the same, with these behind what is left. -/
def followedBy (more : Bytes) (result : Except Error (α × Bytes)) : Except Error (α × Bytes) :=
  result.map fun r => (r.1, r.2 ++ more)

/-- `read` takes the values that `P` allows from the front of some bytes, each from the bytes that
`write` puts. -/
structure Format (read : Read α) (write : α → Bytes) (P : α → Prop) : Prop where
  /-- What was written is read, and nothing behind it. -/
  read_write : ∀ {a : α}, P a → ∀ rest, read (write a ++ rest) = .ok (a, rest)
  /-- Nothing else is read. -/
  write_of_read : ∀ {bs : Bytes} {a : α} {rest : Bytes}, read bs = .ok (a, rest) →
    P a ∧ bs = write a ++ rest
  /-- Bytes that follow change nothing, unless there were too few. -/
  read_append : ∀ bs more, read bs = .error (.image .truncated) ∨
    read (bs ++ more) = followedBy more (read bs)

namespace Format

variable {read : Read α} {write : α → Bytes} {P : α → Prop}

/-- Where a written value was cut, reading runs out of bytes. -/
theorem read_of_cut (h : Format read write P) {a : α} (ha : P a) {cut : Bytes}
    (hcut : cut <+: write a) (hne : cut ≠ write a) : read cut = .error (.image .truncated) := by
  obtain ⟨more, hmore⟩ := hcut
  rcases h.read_append cut more with hshort | hsame
  · exact hshort
  · -- otherwise nothing would be left behind the whole value, and something behind the cut one
    have hwhole := h.read_write ha []
    rw [List.append_nil, ← hmore, hsame] at hwhole
    cases hread : read cut with
    | error e =>
      rw [hread] at hwhole
      cases hwhole
    | ok r =>
      rw [hread] at hwhole
      simp only [followedBy, Except.map, Except.ok.injEq, Prod.mk.injEq,
        List.append_eq_nil_iff] at hwhole
      rw [hwhole.2.2, List.append_nil] at hmore
      exact absurd hmore hne

/-- Another way to write the same bytes, and to say which values there are. -/
theorem congr {write' : α → Bytes} {P' : α → Prop} (h : Format read write P)
    (hwrite : ∀ a, write' a = write a) (hP : ∀ a, P' a ↔ P a) : Format read write' P' where
  read_write := fun ha rest => by rw [hwrite, h.read_write ((hP _).1 ha)]
  write_of_read := fun hread => by
    rw [hP, hwrite]
    exact h.write_of_read hread
  read_append := h.read_append

/-- A value that no bytes are needed for: the outcome of a check. -/
theorem done (x : Except Error α) (h : ∀ a, x = .ok a ↔ P a) :
    Format (fun bs => do let a ← x; .ok (a, bs)) (fun _ => []) P where
  read_write := fun ha rest => by
    rw [(h _).2 ha]
    rfl
  write_of_read := by
    intro bs a rest hread
    cases hx : x with
    | error e =>
      rw [hx] at hread
      cases hread
    | ok x =>
      rw [hx] at hread
      cases hread
      exact ⟨(h _).1 hx, rfl⟩
  read_append := by
    intro bs more
    right
    cases x with
    | error e => rfl
    | ok a => rfl

/-- One part behind the other. The part `get` of the value comes first, and what the rest is read as
may depend on it. -/
theorem bind {Q : β → Prop} {next : α → Read β} {write' : β → Bytes}
    (h : Format read write P) (get : β → α) (hget : ∀ b, Q b → P (get b))
    (hnext : ∀ a, P a → Format (next a) write' fun b => Q b ∧ get b = a) :
    Format (fun bs => do let (a, bs) ← read bs; next a bs) (fun b => write (get b) ++ write' b)
      Q where
  read_write := by
    intro b hb rest
    simp only [List.append_assoc, h.read_write (hget b hb)]
    exact (hnext _ (hget b hb)).read_write ⟨hb, rfl⟩ rest
  write_of_read := by
    intro bs b rest hread
    cases hfirst : read bs with
    | error e =>
      simp only [hfirst] at hread
      cases hread
    | ok r =>
      obtain ⟨a, behind⟩ := r
      simp only [hfirst] at hread
      obtain ⟨ha, rfl⟩ := h.write_of_read hfirst
      obtain ⟨⟨hb, rfl⟩, rfl⟩ := (hnext a ha).write_of_read hread
      exact ⟨hb, (List.append_assoc _ _ _).symm⟩
  read_append := by
    intro bs more
    rcases h.read_append bs more with hshort | hsame
    · left
      simp only [hshort]
      rfl
    · cases hfirst : read bs with
      | error e =>
        rw [hfirst] at hsame
        right
        simp only [hsame]
        rfl
      | ok r =>
        obtain ⟨a, behind⟩ := r
        rw [hfirst] at hsame
        have hsame : read (bs ++ more) = .ok (a, behind ++ more) := hsame
        simp only [hsame]
        exact (hnext a (h.write_of_read hfirst).1).read_append behind more

/-- The same bytes for other values that stand for them, one for one. -/
theorem map (h : Format read write P) {f : α → β} {g : β → α} (hg : ∀ b, P (g b))
    (hfg : ∀ b, f (g b) = b) (hgf : ∀ a, P a → g (f a) = a) :
    Format (Read.map f read) (fun b => write (g b)) fun _ => True := by
  have hparts := h.bind (Q := fun _ => True) g (fun b _ => hg b) fun a ha =>
    done (.ok (f a)) fun b => by
      constructor
      · intro hb
        cases hb
        exact ⟨trivial, hgf a ha⟩
      · intro hb
        rw [← hb.2, hfg]
  have hread : Read.map f read = (fun bs => do let (a, bs) ← read bs; .ok (f a, bs)) := by
    funext bs
    unfold Read.map
    cases read bs with
    | error e => rfl
    | ok r => rfl
  rw [hread]
  exact hparts.congr (fun b => (List.append_nil _).symm) fun _ => Iff.rfl

end Format

/-! ## Numbers -/

@[simp] theorem length_ofNat (width value : Nat) : (ofNat width value).length = width := by
  induction width generalizing value with
  | zero => rfl
  | succ width ih => rw [ofNat, List.length_cons, ih]

/-- As many bytes as a number needs stand for it. -/
theorem toNat_ofNat {width value : Nat} (h : value < 256 ^ width) :
    toNat (ofNat width value) = value := by
  induction width generalizing value with
  | zero =>
    rw [Nat.pow_zero] at h
    rw [ofNat, toNat]
    omega
  | succ width ih =>
    rw [Nat.pow_succ] at h
    rw [ofNat, toNat, ih (by omega), Nat.toUInt8_eq, UInt8.toNat_ofNat']
    omega

theorem toNat_lt (bs : Bytes) : toNat bs < 256 ^ bs.length := by
  induction bs with
  | nil => exact Nat.one_pos
  | cons b bs ih =>
    have hb := b.toNat_lt
    rw [toNat, List.length_cons, Nat.pow_succ]
    omega

/-- There is one way only to write a number in as many bytes. -/
theorem ofNat_toNat (bs : Bytes) : ofNat bs.length (toNat bs) = bs := by
  induction bs with
  | nil => rfl
  | cons b bs ih =>
    have hb := b.toNat_lt
    have hlow : (b.toNat + 256 * toNat bs).toUInt8 = b := by
      rw [← UInt8.toNat_inj, Nat.toUInt8_eq, UInt8.toNat_ofNat']
      omega
    have hhigh : (b.toNat + 256 * toNat bs) / 256 = toNat bs := by omega
    rw [List.length_cons, toNat, ofNat, hlow, hhigh, ih]

/-- A number of fixed width, if it fits. -/
theorem format_nat (width : Nat) : Format (readNat width) (ofNat width) (· < 256 ^ width) where
  read_write := by
    intro value hvalue rest
    unfold readNat
    rw [take?_eq_some.2 ⟨length_ofNat width value, rfl⟩]
    dsimp only
    rw [toNat_ofNat hvalue]
  write_of_read := by
    intro bs value rest hread
    unfold readNat at hread
    split at hread
    next front rest' htake =>
      cases hread
      obtain ⟨hlen, rfl⟩ := take?_eq_some.1 htake
      rw [← hlen]
      exact ⟨toNat_lt front, by rw [ofNat_toNat]⟩
    next => cases hread
  read_append := by
    intro bs more
    unfold readNat
    cases htake : take? width bs with
    | none => exact Or.inl rfl
    | some r =>
      obtain ⟨front, rest⟩ := r
      obtain ⟨hlen, rfl⟩ := take?_eq_some.1 htake
      rw [List.append_assoc, take?_eq_some.2 ⟨hlen, rfl⟩]
      exact Or.inr rfl

theorem format_uint32 : Format readUInt32 ofUInt32 fun _ => True :=
  (format_nat 4).map (g := UInt32.toNat) UInt32.toNat_lt (fun _ => UInt32.ofNat_toNat) fun _ h =>
    UInt32.toNat_ofNat_of_lt' h

theorem format_uint64 : Format readUInt64 ofUInt64 fun _ => True :=
  (format_nat 8).map (g := UInt64.toNat) UInt64.toNat_lt (fun _ => UInt64.ofNat_toNat) fun _ h =>
    UInt64.toNat_ofNat_of_lt' h

/-- A stored number of single precision is its bit pattern, also where that is no number. -/
theorem format_single : Format readSingle ofSingle fun _ => True :=
  format_uint32.map (g := Single.bits) (fun _ => trivial) (fun _ => rfl) fun _ _ => rfl

/-! ## Lists -/

section Array

variable {read : Read α} {write : α → Bytes} {P : α → Prop}

theorem readInto_write (h : Format read write P) {xs : List α} (hxs : ∀ x ∈ xs, P x)
    (done : Array α) (rest : Bytes) :
    readInto read xs.length done (xs.flatMap write ++ rest) = .ok (done ++ xs, rest) := by
  induction xs generalizing done with
  | nil => simp [readInto]
  | cons x xs ih =>
    rw [List.forall_mem_cons] at hxs
    simp only [List.length_cons, readInto, List.flatMap_cons, List.append_assoc,
      h.read_write hxs.1, ih hxs.2]
    simp

theorem write_of_readInto (h : Format read write P) {n : Nat} {done xs : Array α} {bs rest : Bytes}
    (hread : readInto read n done bs = .ok (xs, rest)) :
    ∃ l : List α, xs = done ++ l ∧ l.length = n ∧ (∀ x ∈ l, P x) ∧
      bs = l.flatMap write ++ rest := by
  induction n generalizing done bs with
  | zero =>
    cases hread
    exact ⟨[], by simp, rfl, by simp, rfl⟩
  | succ n ih =>
    rw [readInto] at hread
    split at hread
    next x behind hfirst =>
      obtain ⟨hx, rfl⟩ := h.write_of_read hfirst
      obtain ⟨l, rfl, hlen, hl, rfl⟩ := ih hread
      refine ⟨x :: l, by simp, by simp [hlen], List.forall_mem_cons.2 ⟨hx, hl⟩, by simp⟩
    next => cases hread

theorem readInto_append (h : Format read write P) (n : Nat) (done : Array α) (bs more : Bytes) :
    readInto read n done bs = .error (.image .truncated) ∨
      readInto read n done (bs ++ more) = followedBy more (readInto read n done bs) := by
  induction n generalizing done bs with
  | zero => exact Or.inr rfl
  | succ n ih =>
    rw [readInto, readInto]
    rcases h.read_append bs more with hshort | hsame
    · left
      simp only [hshort]
    · cases hfirst : read bs with
      | error e =>
        rw [hfirst] at hsame
        right
        simp only [hsame, followedBy, Except.map]
      | ok r =>
        obtain ⟨x, behind⟩ := r
        rw [hfirst] at hsame
        simp only [hsame, followedBy, Except.map]
        exact ih (done.push x) behind

/-- A list with its length in front, if that can be counted. -/
theorem format_array (h : Format read write P) :
    Format (readArray read) (ofArray write) fun xs => xs.size < 256 ^ 8 ∧ ∀ x ∈ xs, P x := by
  have helements : ∀ n < 256 ^ 8, Format (readInto read n #[]) (fun xs => xs.toList.flatMap write)
      fun xs => (xs.size < 256 ^ 8 ∧ ∀ x ∈ xs, P x) ∧ xs.size = n := by
    intro n hn
    refine ⟨?_, ?_, readInto_append h n #[]⟩
    · intro xs hxs rest
      obtain ⟨⟨-, hxs⟩, rfl⟩ := hxs
      rw [← Array.length_toList, readInto_write h (fun x hx => hxs x (Array.mem_toList_iff.1 hx))]
      simp
    · intro bs xs rest hread
      obtain ⟨l, rfl, rfl, hl, rfl⟩ := write_of_readInto h hread
      simpa using ⟨hn, hl⟩
  have hread : readArray read =
      (fun bs => do let (n, bs) ← readNat 8 bs; readInto read n #[] bs) := by
    funext bs
    unfold readArray
    cases readNat 8 bs with
    | error e => rfl
    | ok r => rfl
  rw [hread]
  exact (format_nat 8).bind Array.size (fun _ hxs => hxs.1) helements

end Array

end Bytes

end Ngram
