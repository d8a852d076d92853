import Ngram.Number.Decimal

/-!
# What can go wrong

Each way in which a request can fail is a constructor that carries the facts of the failure; its
wording is worked out in one place, `Error.message`. Requests that the caller promised not to make,
such as scoring a word outside the vocabulary without a check, end in `Error.outOfRange`.
-/

namespace Ngram

/-- A word id. -/
abbrev Word := UInt32

/-- An n-gram, oldest word first. -/
abbrev Gram := List Word

/-- The highest order of a model: no n-gram is longer. -/
abbrev maxOrder : Nat := 6

/-- The longest context that a score can depend on. -/
abbrev contextSize : Nat := 5

theorem contextSize_pos : 0 < contextSize := by decide

/-- The role of a reserved word. -/
inductive Special where
  | unknown
  | beginSentence
  | endSentence
deriving DecidableEq

/-- Faults of a stream of words. -/
inductive InputFault where
  | noSentences
  | empty
  | endsInside (words : Nat)
  | endsWith (word : Word)
  | wordOutside (word bound : Word)
  | wordTooLarge (value : Nat)
  | wordTooWide (word : Word) (bytes : Nat)
  | raggedLength (length bytes : Nat)
  | partialWord (bytes offset : Nat)
  | reported (text : String)
deriving DecidableEq

/-- Faults in the parts of a model. -/
inductive ModelFault where
  | noBuckets
  | maskBuckets (buckets : Nat)
  | orderOutside (order : Nat)
  | middleTables (order expected found : Nat)
  | unigramCount (count : Nat)
  | specialOutside (role : Special) (id bound : Word)
  | specialsEqual
  | boundMismatch (bound : Word) (unigrams : Nat)
  | imageTooShort
  | gramLength (length : Nat)
  | gramsTooLong (count length order : Nat)
  | unigramOutside (word bound : Word)
  | gramOutside (word : Word) (gram : Gram) (bound : Word)
  | missingSuffix (gram : Gram)
deriving DecidableEq

/-- Settings that are refused. -/
inductive SettingFault where
  | multiplier (value : Single)
  | bucketMode (text : String)
  | range (name : String) (max value : Nat)
  | orderOutside
  | vocabularySize
  | trialSize
deriving DecidableEq

/-- Faults of the payload of a stored table or model. -/
inductive ImageFault where
  | truncated
  | badMode (tag : Nat)
  | noBuckets
  | maskBuckets (buckets : Nat)
  | noEmptyBucket
deriving DecidableEq

/-- Why a request failed. -/
inductive Error where
  | io (text : String)
  | unreadable
  | badMagic
  | badVersion (major minor : UInt8)
  | input (fault : InputFault)
  | sentenceTooLong (limit : Nat)
  | tableFull (buckets : Nat)
  | reservedKey
  | duplicateKey (key : UInt64)
  | model (fault : ModelFault)
  | setting (fault : SettingFault)
  | image (fault : ImageFault)
  | json
  | outOfRange
deriving DecidableEq

instance : Inhabited Error := ⟨.outOfRange⟩

/-- How a reserved word is written. -/
def Special.text : Special → String
  | .unknown => "<unk>"
  | .beginSentence => "<s>"
  | .endSentence => "</s>"

/-- A list of numbers in brackets. -/
def bracketed (ns : List Nat) : String :=
  "[" ++ String.intercalate ", " (ns.map Decimal.digits) ++ "]"

/-- The words of an n-gram in brackets. -/
def Gram.text (g : Gram) : String := bracketed (g.map UInt32.toNat)

/-- A key in hexadecimal, sixteen digits wide. -/
def hexKey (key : UInt64) : String :=
  let ds := Nat.toDigits 16 key.toNat
  String.ofList ('0' :: 'x' :: (List.replicate (16 - ds.length) '0' ++ ds))

def InputFault.message : InputFault → String
  | .noSentences => "no sentences in input"
  | .empty => "empty input"
  | .endsInside words => s!"input ends inside a sentence of {words} words without </s>"
  | .endsWith word => s!"input ends with word {word} instead of </s>"
  | .wordOutside word bound => s!"word id {word} outside vocabulary bound {bound}"
  | .wordTooLarge value => s!"word id {value} does not fit a word index"
  | .wordTooWide word bytes => s!"word id {word} does not fit {bytes} bytes"
  | .raggedLength length bytes =>
    s!"{length} bytes is not a multiple of the {bytes}-byte word width"
  | .partialWord bytes offset => s!"stream ends with a partial {bytes}-byte word at offset {offset}"
  | .reported text => text

def ModelFault.message : ModelFault → String
  | .noBuckets => "Probe table needs at least one bucket"
  | .maskBuckets buckets => s!"Mask mode needs a power-of-two bucket count, got {buckets}"
  | .orderOutside order => s!"Order {order} outside 1..={maxOrder}"
  | .middleTables order expected found =>
    s!"Order {order} needs {expected} middle tables, found {found}"
  | .unigramCount count => s!"Unigram table size {count} out of range"
  | .specialOutside role id bound =>
    s!"{role.text} id {id} outside vocabulary bound {bound}"
  | .specialsEqual => "<s> and </s> must differ"
  | .boundMismatch bound unigrams =>
    s!"Vocabulary bound {bound} does not match unigram table size {unigrams}"
  | .imageTooShort => "Model image too short"
  | .gramLength length => s!"N-gram length {length} outside 1..={maxOrder}"
  | .gramsTooLong count length order =>
    s!"{count} n-grams of length {length} exceed order {order}"
  | .unigramOutside word bound => s!"Unigram id {word} outside vocabulary bound {bound}"
  | .gramOutside word gram bound =>
    s!"Word id {word} in n-gram {gram.text} outside vocabulary bound {bound}"
  | .missingSuffix gram => s!"N-gram {gram.text} is missing its suffix {Gram.text gram.tail}"

def SettingFault.message : SettingFault → String
  | .multiplier value => s!"Table multiplier must be >= 1.0, got {value.text}"
  | .bucketMode text => s!"Unknown bucket mode: {text}. Use divide or mask"
  | .range name max value => s!"{name} must be in 1..={max}, got {value}"
  | .orderOutside => s!"order must be in 1..={maxOrder}"
  | .vocabularySize => "vocab_size must leave room for ordinary words"
  | .trialSize => "entries and queue_depth must be positive"

def ImageFault.message : ImageFault → String
  | .truncated => "unexpected end of image"
  | .badMode tag => s!"unknown bucket mode {tag}"
  | .noBuckets => "probe table without buckets"
  | .maskBuckets buckets => s!"Model error: {(ModelFault.maskBuckets buckets).message}"
  | .noEmptyBucket => "probe table has no empty bucket"

/-- The wording of an error. -/
def Error.message : Error → String
  | .io text => s!"IO error: {text}"
  | .unreadable => "IO error: file not accessible"
  | .badMagic => "Invalid magic: expected ALICELMB"
  | .badVersion major minor => s!"Invalid version: {major}.{minor}"
  | .input fault => s!"Malformed input: {fault.message}"
  | .sentenceTooLong limit => s!"Sentence longer than the {limit}-word slot buffer"
  | .tableFull buckets => s!"Probe table full: {buckets} buckets"
  | .reservedKey => "Key 0 is reserved for empty buckets"
  | .duplicateKey key => s!"Duplicate key: {hexKey key}"
  | .model fault => s!"Model error: {fault.message}"
  | .setting fault => s!"Invalid configuration: {fault.message}"
  | .image fault => s!"Serialization error: {fault.message}"
  | .json => "JSON error"
  | .outOfRange => "index out of range"

end Ngram
