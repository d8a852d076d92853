import Ngram.Corpus.Partition
import Ngram.Corpus.Stream
import Ngram.Schedule.Ring

/-!
# Scoring a corpus

A corpus is cut at the ends of sentences into as many parts as there are threads; each part is
scored by a ring of its own, and the reports are put one behind the other in the order of the
corpus, so that the total does not depend on the number of parts. A stream is scored as it is read
when there is one thread, and read to its end first otherwise.
-/

namespace Ngram

/-- The outcome for a whole corpus. -/
structure RunReport where
  total : Double
  sentences : Nat
  words : Nat
  steps : Nat
  /-- The parts that were scored on their own. -/
  threads : Nat
  depth : Nat
deriving DecidableEq

/-- A length of time. -/
structure Duration where
  /-- The time in nanoseconds. -/
  nanos : Nat
  /-- Whole seconds are counted in 64 bits. -/
  seconds_le : nanos / 10 ^ 9 ≤ maxCount

namespace Duration

/-- A length of time, if its seconds can be counted. -/
def ofNanos? (nanos : Nat) : Except Error Duration :=
  if h : nanos / 10 ^ 9 ≤ maxCount then .ok ⟨nanos, h⟩ else .error .outOfRange

/-- A length of time in seconds: whole seconds, and the rest as a fraction. -/
def inSeconds (d : Duration) : Double :=
  let seconds := (d.nanos / 10 ^ 9).toUInt64
  let rest := (d.nanos % 10 ^ 9).toUInt64
  .ofValue (seconds.toFloat + rest.toFloat / 1e9)

end Duration

/-- How many words were scored in a second; none when no time has passed. -/
def wordsPerSecond (words : UInt64) (elapsed : Duration) : Double :=
  let seconds := elapsed.inSeconds.value
  if 0 < seconds then .ofValue (words.toFloat / seconds) else .zero

/-- A model with checked settings. -/
structure Scorer where
  model : Model
  settings : PipelineSettings
  settings_valid : settings.validate = .ok ()

namespace Scorer

/-- A scorer, if the settings are accepted. -/
def ofSettings (model : Model) (settings : PipelineSettings) : Except Error Scorer :=
  match h : settings.validate with
  | .ok () => .ok ⟨model, settings, h⟩
  | .error e => .error e

/-- The report of a run over some parts. -/
def report (s : Scorer) (r : Report) (threads : Nat) : RunReport :=
  ⟨r.total, r.sentences, r.words, r.steps, threads, s.settings.depth⟩

/-- Scores items with a new ring. -/
def scoreItems (s : Scorer) (items : List Item) : Except Error Report := do
  let ring ← Ring.ofSettings s.model s.settings
  (ring.score s.model items).1

/-- Scores one part of a corpus. -/
def scorePart (s : Scorer) (words : List Word) : Except Error Report :=
  s.scoreItems (words.map .ok)

/-- Scores the parts of a corpus one after another, and puts their reports together. -/
def scoreParts (s : Scorer) (words : List Word) (spans : List Span) : Except Error Report := do
  let reports ← spans.mapM fun span => s.scorePart (span.slice words)
  .ok (Report.concat reports)

/-- Scores a corpus of words, which has to end with the end of a sentence. -/
def scoreWords (s : Scorer) (words : List Word) : Except Error RunReport :=
  let eos := s.model.vocabulary.endSentence
  match words.getLast? with
  | none => .error (.input .empty)
  | some last =>
    if last ≠ eos then .error (.input (.endsWith last))
    else do
      let spans ← corpusSpans? words eos s.settings.threads
      let r ←
        if 1 < s.settings.threads ∧ 1 < spans.length then s.scoreParts words spans
        else s.scorePart words
      .ok (s.report r spans.length)

/-- The width of the words of a corpus. -/
def width (s : Scorer) : WordWidth := widthOf s.model.vocabulary.bound

/-- Scores a corpus of bytes. -/
def scoreBytes (s : Scorer) (bs : Bytes) : Except Error RunReport := do
  let words ← s.width.decode bs
  s.scoreWords words

/-- Scores a corpus that a file holds, if it can be read. -/
def scoreFile (s : Scorer) : Option Bytes → Except Error RunReport
  | none => .error .unreadable
  | some bs => if bs.isEmpty then .error (.input .empty) else s.scoreBytes bs

/-- Scores a corpus that a source delivers. -/
def scoreStream (s : Scorer) (source : Source) : Except Error RunReport := do
  if 1 < s.settings.threads then
    s.scoreBytes (← source.readAll)
  else
    let stream : WordStream := { source, width := s.width }
    let r ← s.scoreItems stream.items
    .ok (s.report r 1)

end Scorer

end Ngram
