import Ngram.Corpus.Width

/-!
# Streams of words

A source delivers its bytes in reads: some bytes, up to as many as were asked for, a pause that asks
to be called again, a failure, or no bytes at all, which means the end. A word stream puts whole
words together from such reads, counts the bytes of those it has delivered, and stops for good at
the end of the source, at a failure, and at an end in the middle of a word. A number that is too
large for a word is reported in its place and does not stop the stream.
-/

namespace Ngram

/-- What a source has ready. -/
inductive Chunk where
  /-- Bytes, given out over as many reads as it takes. No bytes are one read that finds none. -/
  | data (bytes : Bytes)
  /-- A read that has to be made again. -/
  | interrupted
  | failed (text : String)
deriving DecidableEq, Inhabited

/-- A source that ends behind its chunks. -/
abbrev Source := List Chunk

namespace Source

/-- A bound on the reads that a source can answer other than by its end. -/
def size : Source → Nat
  | [] => 0
  | .data bs :: s => bs.length + 1 + size s
  | _ :: s => 1 + size s

/-- Collects `missing` bytes behind those already there, fewer at the end of the source. -/
def gather (missing : Nat) (done : Bytes) : Source → Except Error Bytes × Source
  | [] => (.ok done, [])
  | .interrupted :: s => gather missing done s
  | .failed text :: s => (.error (.io text), s)
  | .data bs :: s =>
    let front := bs.take missing
    match bs.drop missing with
    | b :: rest => (.ok (done ++ front), .data (b :: rest) :: s)
    | [] =>
      -- nothing is left of these bytes, and they may not have sufficed
      if front.isEmpty ∨ front.length = missing then (.ok (done ++ front), s)
      else gather (missing - front.length) (done ++ front) s

/-- All bytes up to the end of the source, held in reverse while they are collected. -/
def drain (done : Bytes) : Source → Except Error Bytes
  | [] => .ok done.reverse
  | .interrupted :: s => drain done s
  | .failed text :: _ => .error (.io text)
  | .data bs :: s => if bs.isEmpty then .ok done.reverse else drain (bs.reverse ++ done) s

/-- All bytes up to the end of the source. -/
def readAll (s : Source) : Except Error Bytes := drain [] s

theorem size_gather_le (missing : Nat) (done : Bytes) (s : Source) :
    size (gather missing done s).2 ≤ size s := by
  induction s generalizing missing done with
  | nil => exact Nat.le_refl _
  | cons c s ih =>
    cases c with
    | interrupted => exact Nat.le_trans (ih _ _) (Nat.le_add_left _ _)
    | failed => exact Nat.le_add_left _ _
    | data bs =>
      simp only [gather]
      split
      next b rest h =>
        have := congrArg List.length h
        simp only [List.length_drop, List.length_cons] at this
        simp only [size, List.length_cons]
        omega
      next =>
        split
        next => exact Nat.le_add_left _ _
        next => exact Nat.le_trans (ih _ _) (Nat.le_add_left _ _)

/-- Bytes that were collected are gone from the source. -/
theorem size_gather_lt {missing : Nat} {done bs : Bytes} {s s' : Source} (hm : 0 < missing)
    (h : gather missing done s = (.ok bs, s')) (hne : bs.length ≠ done.length) :
    size s' < size s := by
  induction s generalizing missing done with
  | nil => cases h; exact absurd rfl hne
  | cons c s ih =>
    cases c with
    | interrupted => exact Nat.lt_of_lt_of_le (ih hm h hne) (Nat.le_add_left _ _)
    | failed => cases h
    | data front =>
      simp only [gather] at h
      split at h
      next b rest hd =>
        cases h
        have := congrArg List.length hd
        simp only [List.length_drop, List.length_cons] at this
        simp only [size, List.length_cons]
        omega
      next =>
        split at h
        next => cases h; simp only [size]; omega
        next =>
          have := size_gather_le (missing - (front.take missing).length)
            (done ++ front.take missing) s
          rw [h] at this
          dsimp only at this
          simp only [size]
          omega

end Source

/-- A stream that puts words together. -/
structure WordStream where
  source : Source
  width : WordWidth
  /-- The bytes of the words delivered so far. -/
  offset : Nat := 0
  done : Bool := false
deriving DecidableEq

namespace WordStream

/-- The next word or fault, or nothing once the stream has stopped. -/
def next (s : WordStream) : Option (Except Error Word) × WordStream :=
  if s.done then (none, s)
  else
    match Source.gather s.width.bytes [] s.source with
    | (.error e, source) => (some (.error e), { s with source, done := true })
    | (.ok bs, source) =>
      if bs.length = 0 then (none, { s with source, done := true })
      else if bs.length < s.width.bytes then
        (some (.error (.input (.partialWord s.width.bytes s.offset))),
          { s with source, done := true })
      else
        (some (WordWidth.toWord (Bytes.toNat bs)),
          { s with source, offset := s.offset + s.width.bytes })

/-- A bound on the items that a stream can still deliver. -/
def size (s : WordStream) : Nat := if s.done then 0 else Source.size s.source + 1

theorem size_next_lt {s s' : WordStream} {item : Except Error Word}
    (h : s.next = (some item, s')) : s'.size < s.size := by
  unfold next at h
  split at h
  next => cases h
  next hd =>
    have hd : s.done = false := by simpa using hd
    split at h
    next => cases h; simp [size, hd]
    next bs source hg =>
      split at h
      next => cases h
      next hne =>
        split at h
        next => cases h; simp [size, hd]
        next =>
          have := Source.size_gather_lt s.width.bytes_pos hg hne
          cases h
          simpa [size, hd] using this

/-- Everything that a stream delivers, behind what it has delivered already, held in reverse. -/
def itemsOnto (done : List (Except Error Word)) (s : WordStream) : List (Except Error Word) :=
  match _h : s.next with
  | (none, _) => done.reverse
  | (some item, s) => s.itemsOnto (item :: done)
termination_by s.size
decreasing_by exact size_next_lt _h

/-- Everything that a stream delivers. -/
def items (s : WordStream) : List (Except Error Word) := s.itemsOnto []

end WordStream

end Ngram
