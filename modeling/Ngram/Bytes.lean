import Ngram.Error

/-!
# Numbers and lists as bytes

Stored numbers are little-endian and of fixed width, without padding; a list is its length in eight
bytes and then its elements. A `Read` takes what it needs from the front of a list of bytes and
leaves the rest, or fails when there is too little.
-/

namespace Ngram

/-- Bytes of a file or a stream. -/
abbrev Bytes := List UInt8

/-- A reader of one value from the front of some bytes. -/
abbrev Read (α : Type) := Bytes → Except Error (α × Bytes)

namespace Bytes

/-- The `width` low bytes of a number, least significant first. -/
def ofNat : (width value : Nat) → Bytes
  | 0, _ => []
  | width + 1, value => value.toUInt8 :: ofNat width (value / 256)

/-- The number that some bytes stand for, least significant first. -/
def toNat : Bytes → Nat
  | [] => 0
  | b :: bs => b.toNat + 256 * toNat bs

/-- The next `width` bytes. -/
def take? (width : Nat) (bs : Bytes) : Option (Bytes × Bytes) :=
  let front := bs.take width
  if front.length = width then some (front, bs.drop width) else none

theorem take?_eq_some {width : Nat} {bs front rest : Bytes} :
    take? width bs = some (front, rest) ↔ front.length = width ∧ bs = front ++ rest := by
  unfold take?
  dsimp only
  split
  next h =>
    simp only [Option.some.injEq, Prod.mk.injEq]
    constructor
    · intro h
      obtain ⟨rfl, rfl⟩ := h
      exact ⟨h, (List.take_append_drop _ _).symm⟩
    · intro h
      obtain ⟨rfl, rfl⟩ := h
      simp
  next h =>
    constructor
    · intro h; cases h
    · intro h
      obtain ⟨rfl, rfl⟩ := h
      simp at h

theorem length_of_take? {width : Nat} {bs front rest : Bytes}
    (h : take? width bs = some (front, rest)) : bs.length = width + rest.length := by
  obtain ⟨rfl, rfl⟩ := take?_eq_some.1 h
  exact List.length_append

/-- Reads a number of `width` bytes. -/
def readNat (width : Nat) : Read Nat := fun bs =>
  match take? width bs with
  | some (front, rest) => .ok (toNat front, rest)
  | none => .error (.image .truncated)

def ofUInt32 (n : UInt32) : Bytes := ofNat 4 n.toNat

def ofUInt64 (n : UInt64) : Bytes := ofNat 8 n.toNat

def ofSingle (x : Single) : Bytes := ofUInt32 x.bits

/-- Applies a function to what is read. -/
def Read.map {α β : Type} (f : α → β) (read : Read α) : Read β := fun bs =>
  match read bs with
  | .ok (a, rest) => .ok (f a, rest)
  | .error e => .error e

def readUInt32 : Read UInt32 := Read.map Nat.toUInt32 (readNat 4)

def readUInt64 : Read UInt64 := Read.map Nat.toUInt64 (readNat 8)

def readSingle : Read Single := Read.map Single.mk readUInt32

/-- Reads `n` values behind those already read. -/
def readInto {α : Type} (read : Read α) : Nat → Array α → Read (Array α)
  | 0, done, bs => .ok (done, bs)
  | n + 1, done, bs =>
    match read bs with
    | .ok (a, rest) => readInto read n (done.push a) rest
    | .error e => .error e

/-- Reads a list with its length in front. -/
def readArray {α : Type} (read : Read α) : Read (Array α) := fun bs =>
  match readNat 8 bs with
  | .ok (n, rest) => readInto read n #[] rest
  | .error e => .error e

/-- Writes a list with its length in front. -/
def ofArray {α : Type} (write : α → Bytes) (xs : Array α) : Bytes :=
  ofNat 8 xs.size ++ xs.toList.flatMap write

end Bytes

end Ngram
