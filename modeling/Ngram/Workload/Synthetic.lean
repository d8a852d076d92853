import Ngram.Model.Builder
import Ngram.Workload.ChaCha

/-!
# Synthetic models and corpora

A workload of a given shape: a model whose n-grams are all the windows of random training sentences,
so that with an n-gram both the one without its oldest and the one without its newest word are
there, and a corpus of sentences. About half of these repeat training sentences and reach the higher
orders; the others are new and mostly back off.
-/

namespace Ngram

/-- The shape of a synthetic workload. -/
structure SyntheticSpec where
  order : Nat := 5
  /-- The bound of the word ids, reserved ones included. -/
  vocabularySize : Word := 5000
  /-- Sentences of the corpus. -/
  sentences : Nat := 10000
  /-- The longest sentence without its end. -/
  maxLength : Nat := 30
  /-- Sentences that the n-grams are taken from. -/
  training : Nat := 5000
  seed : UInt64 := 42
deriving DecidableEq, Inhabited

namespace SyntheticSpec

/-- There has to be an ordinary word besides the three reserved ones. -/
def validate (spec : SyntheticSpec) : Except Error Unit :=
  if spec.order = 0 ∨ maxOrder < spec.order then .error (.setting .orderOutside)
  else if spec.vocabularySize < 4 then .error (.setting .vocabularySize)
  else .ok ()

end SyntheticSpec

/-- A model and a corpus for it. -/
structure Workload where
  model : Model
  corpus : List Word

namespace Synthetic

variable {σ : Type}

/-- An ordinary word; those with small ids are drawn more often. -/
def drawWord (d : Draws σ) (bound : Word) (s : σ) : Word × σ :=
  let (f, s) := d.fraction s
  let f := f.value
  let skewed := (f * f * (bound - 3).toFloat).toUInt32
  (3 + min skewed (bound - 4), s)

/-- A sentence without its end. -/
def drawSentence (d : Draws σ) (bound : Word) (maxLength : Nat) (s : σ) : List Word × σ :=
  let (length, s) := d.upTo maxLength s
  let (words, s) := Draws.times length.val (drawWord d bound) s
  (words.toList, s)

/-- The weights of a single word. The beginning of a sentence is never scored. -/
def drawUnigram (d : Draws σ) (beginSentence : Word) (b : Builder) (word : Word) (s : σ) :
    Builder × σ :=
  let (prob, s) :=
    if word = beginSentence then (⟨0xc2c60000⟩, s) else d.weight ⟨0xc0c00000⟩ ⟨0xbf800000⟩ s
  let (backoff, s) := d.weight ⟨0xbf800000⟩ .zero s
  (b.add [word] ⟨prob, backoff, prob⟩, s)

/-- The weights of a longer n-gram, if it has none yet. At the highest order there is no backoff. -/
def drawGram (d : Draws σ) (b : Builder) (g : Gram) (s : σ) : Builder × σ :=
  if b.contains g then (b, s)
  else
    let (prob, s) := d.weight ⟨0xc0400000⟩ ⟨0xbd4ccccd⟩ s
    let (backoff, s) :=
      if g.length < b.order then d.weight ⟨0xbf800000⟩ .zero s else (.zero, s)
    (b.add g ⟨prob, backoff, prob⟩, s)

/-- The parts of a list of a given length. -/
def windows (length : Nat) (words : List Word) : List Gram :=
  (List.range (words.length + 1 - length)).map fun i => (words.drop i).take length

/-- The windows of a sentence with its beginning and end, shorter ones first. -/
def sentenceGrams (v : Vocabulary) (order : Nat) (sentence : List Word) : List Gram :=
  let padded := v.beginSentence :: sentence ++ [v.endSentence]
  (List.range' 2 (order - 1)).flatMap fun length => windows length padded

/-- Adds the n-grams of a training sentence. -/
def harvest (d : Draws σ) (b : Builder) (sentence : List Word) (s : σ) : Builder × σ :=
  (sentenceGrams b.vocabulary b.order sentence).foldl (fun (b, s) g => drawGram d b g s) (b, s)

/-- Draws training sentences behind those drawn already, and adds their n-grams. -/
def train (d : Draws σ) (maxLength : Nat) :
    Nat → Array (List Word) → Builder → σ → Array (List Word) × Builder × σ
  | 0, done, b, s => (done, b, s)
  | n + 1, done, b, s =>
    let (sentence, s) := drawSentence d b.vocabulary.bound maxLength s
    let (b, s) := harvest d b sentence s
    train d maxLength n (done.push sentence) b s

/-- A sentence of the corpus, with its end. -/
def drawQuery (d : Draws σ) (spec : SyntheticSpec) (v : Vocabulary) (training : Array (List Word))
    (s : σ) : List Word × σ :=
  let fresh (s : σ) := drawSentence d v.bound spec.maxLength s
  let (sentence, s) :=
    if h : 0 < training.size then
      let (again, s) := d.chance ⟨0x3fe0000000000000⟩ s
      if again then
        let (pick, s) := d.upTo (training.size - 1) s
        have := pick.isLt; (training[pick.val], s)
      else fresh s
    else fresh s
  (sentence ++ [v.endSentence], s)

/-- The collected n-grams and the corpus. -/
def collect (d : Draws σ) (spec : SyntheticSpec) (s : σ) : Builder × List Word :=
  let vocabulary : Vocabulary := { bound := spec.vocabularySize }
  let empty : Builder := { order := spec.order, vocabulary }
  let (b, s) := (List.range spec.vocabularySize.toNat).foldl
    (fun (b, s) i => drawUnigram d vocabulary.beginSentence b i.toUInt32 s) (empty, s)
  let (training, b, s) := train d spec.maxLength spec.training #[] b s
  let (sentences, _) := Draws.times spec.sentences (drawQuery d spec vocabulary training) s
  (b, sentences.toList.flatten)

/-- Makes a workload of a given shape. -/
def generateWith (d : Draws σ) (spec : SyntheticSpec) (settings : TableSettings) (s : σ) :
    Except Error Workload := do
  spec.validate
  let (b, corpus) := collect d spec s
  let model ← b.build settings
  .ok { model, corpus }

/-- The list of training sentences is small enough to be held, at 24 bytes for a sentence without
its words, and so is the longest sentence, at four bytes for a word, if any is drawn. -/
def fits (spec : SyntheticSpec) : Bool :=
  spec.training * 24 ≤ maxBytes &&
    (spec.maxLength * 4 ≤ maxBytes || (spec.training == 0 && spec.sentences == 0))

/-- Makes a workload of a given shape, from the seed alone. -/
def generate (spec : SyntheticSpec) (settings : TableSettings) : Except Error Workload := do
  spec.validate
  if !fits spec then .error .outOfRange
  generateWith ChaCha.draws spec settings (.ofSeed spec.seed)

end Synthetic

end Ngram
