import Ngram.Error

/-!
# Keys of n-grams

An n-gram is found by a 64-bit key. The key of `w₁ … wₖ` (oldest first) starts from the newest word
and takes the older ones in, nearest first, which is the order in which a look-up walks back through
its context.
-/

namespace Ngram

/-- The multiplier of the running key. Odd, so that multiplying by it loses nothing. -/
def keyFactor : UInt64 := 8978948897894561157

/-- The multiplier of the word that is taken in. Odd as well. -/
def wordFactor : UInt64 := 17894857484156487943

/-- Takes one more, older word into a key. -/
def combine (key : UInt64) (word : Word) : UInt64 :=
  key * keyFactor ^^^ (1 + word.toUInt64) * wordFactor

/-- The key of an n-gram; that of one word is the word itself. -/
def Gram.key (g : Gram) : UInt64 :=
  match g.reverse with
  | [] => 0
  | newest :: older => older.foldl combine newest.toUInt64

theorem Gram.key_nil : Gram.key [] = 0 := rfl

theorem Gram.key_singleton (w : Word) : Gram.key [w] = w.toUInt64 := rfl

end Ngram
