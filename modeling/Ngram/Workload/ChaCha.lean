import Ngram.Workload.Draws

/-!
# A stream of random words

ChaCha with twelve rounds, as a generator: a key of eight words, taken from a seed, gives for every
number of a block sixteen words, and the blocks one after another are the stream. There is no nonce,
so that the number of a block has two words to itself.
-/

namespace Ngram

namespace ChaCha

/-- Sixteen words, as a square of rows of four. -/
abbrev Block := Vector UInt32 16

abbrev Key := Vector UInt32 8

/-- Turns a word to the left. -/
def rotateLeft (x n : UInt32) : UInt32 := x <<< n ||| x >>> (32 - n)

/-- Adds a word to another one, and mixes the sum into a third one. -/
def mix (v : Block) (a b d : Fin 16) (n : UInt32) : Block :=
  let v := v.set a (v[a] + v[b])
  v.set d (rotateLeft (v[d] ^^^ v[a]) n)

/-- Mixes four words. -/
def quarterRound (v : Block) (a b c d : Fin 16) : Block :=
  let v := mix v a b d 16
  let v := mix v c d b 12
  let v := mix v a b d 8
  mix v c d b 7

/-- Mixes the columns of a block, then its diagonals. -/
def doubleRound (v : Block) : Block :=
  let v := quarterRound v 0 4 8 12
  let v := quarterRound v 1 5 9 13
  let v := quarterRound v 2 6 10 14
  let v := quarterRound v 3 7 11 15
  let v := quarterRound v 0 5 10 15
  let v := quarterRound v 1 6 11 12
  let v := quarterRound v 2 7 8 13
  quarterRound v 3 4 9 14

/-- What a block is before it is mixed: constants, the key, and the number of the block. -/
def start (key : Key) (number : UInt64) : Block :=
  let constants : Vector UInt32 4 := #v[0x61707865, 0x3320646e, 0x79622d32, 0x6b206574]
  let place : Vector UInt32 4 := #v[number.toUInt32, (number >>> 32).toUInt32, 0, 0]
  constants ++ key ++ place

/-- The block of a number: twelve rounds, added to what it was before. -/
def block (key : Key) (number : UInt64) : Block :=
  let v := start key number
  Vector.zipWith (· + ·) (Nat.repeat doubleRound 6 v) v

/-- The next state of a linear congruential generator. -/
def advance (seed : UInt64) : UInt64 := seed * 6364136223846793005 + 11634580027462260723

/-- The word of a state: its upper bits, folded, and turned by the topmost ones. -/
def seedWord (seed : UInt64) : UInt32 :=
  let folded := (((seed >>> 18) ^^^ seed) >>> 27).toUInt32
  let turns := (seed >>> 59).toUInt32
  rotateLeft folded (32 - turns)

/-- The key of a seed: the words of the eight states behind it. -/
def keyOf (seed : UInt64) : Key :=
  Vector.ofFn fun i => seedWord (Nat.repeat advance (i.val + 1) seed)

/-- A place in a stream. -/
structure Stream where
  key : Key
  /-- The number of the next block. -/
  number : UInt64
  /-- What is left of the block before it. -/
  rest : List UInt32

namespace Stream

/-- The beginning of the stream of a seed. -/
def ofSeed (seed : UInt64) : Stream := ⟨keyOf seed, 0, []⟩

/-- The next word. -/
def next (s : Stream) : UInt32 × Stream :=
  match s.rest with
  | word :: rest => (word, { s with rest })
  | [] =>
    let b := block s.key s.number
    (b[0], { s with number := s.number + 1, rest := b.toList.tail })

end Stream

/-- The stream as a source of random values. -/
def draws : Draws Stream := .ofWords Stream.next

end ChaCha

end Ngram
