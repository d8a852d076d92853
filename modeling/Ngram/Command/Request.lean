import Ngram.Command.Arguments
import Ngram.Workload.Synthetic
import Ngram.Workload.TableTrial

/-!
# Requests of the command line

What the program can be asked to do, and how a command line asks for it: to make a synthetic model
and corpus, to score a corpus, to describe a model, or to try the probe table.
-/

namespace Ngram

/-- A request to make a model and a corpus. -/
structure SynthRequest where
  modelPath : String
  corpusPath : String
  spec : SyntheticSpec
  multiplier : Single
  mode : String

/-- A request to score a corpus. -/
structure QueryRequest where
  modelPath : String
  /-- The corpus; a single dash stands for the standard input. -/
  inputPath : String
  depth : Option Nat
  threads : Option Nat
  settingsPath : Option String
  verbose : Bool

inductive Request where
  | synth (r : SynthRequest)
  | query (r : QueryRequest)
  | info (modelPath : String)
  | tableTrial (spec : TrialSpec)

namespace Request

def synthSpec : CommandSpec where
  name := "synth"
  options :=
    [ ⟨"model", some 'm', some .path⟩
    , ⟨"corpus", some 'c', some .path⟩
    , ⟨"order", none, some (.small 255)⟩
    , ⟨"vocab", none, some (.small (2 ^ 32 - 1))⟩
    , ⟨"sentences", none, some (.count maxCount)⟩
    , ⟨"training", none, some (.count maxCount)⟩
    , ⟨"max-len", none, some (.count maxCount)⟩
    , ⟨"seed", none, some (.count maxCount)⟩
    , ⟨"multiplier", none, some .number⟩
    , ⟨"bucket-mode", none, some .text⟩ ]

def querySpec : CommandSpec where
  name := "query"
  positional := ["MODEL", "INPUT"]
  options :=
    [ ⟨"depth", some 'd', some (.count maxCount)⟩
    , ⟨"threads", some 't', some (.count maxCount)⟩
    , ⟨"config", none, some .path⟩
    , ⟨"verbose", some 'v', none⟩ ]

def infoSpec : CommandSpec where
  name := "info"
  positional := ["MODEL"]

def trialSpec : CommandSpec where
  name := "table-bench"
  options :=
    [ ⟨"entries", none, some (.count maxCount)⟩
    , ⟨"lookups", none, some (.count maxCount)⟩
    , ⟨"multiplier", none, some .number⟩
    , ⟨"queue-depth", none, some (.count maxCount)⟩
    , ⟨"seed", none, some (.count maxCount)⟩ ]

/-- All subcommands. -/
def specs : List CommandSpec := [synthSpec, querySpec, infoSpec, trialSpec]

def ofSynth (m : Matched) : Except Refusal Request := do
  let d : SyntheticSpec := {}
  let modelPath ← m.readValue "model" parsePath? "synth.alm"
  let corpusPath ← m.readValue "corpus" parsePath? "synth.words"
  let order ← m.readValue "order" (parseSmall? 255) d.order
  let vocabulary ← m.readValue "vocab" (parseSmall? (2 ^ 32 - 1)) d.vocabularySize.toNat
  let sentences ← m.readValue "sentences" (parseCount? maxCount) d.sentences
  let training ← m.readValue "training" (parseCount? maxCount) d.training
  let maxLength ← m.readValue "max-len" (parseCount? maxCount) d.maxLength
  let seed ← m.readValue "seed" (parseCount? maxCount) d.seed.toNat
  let multiplier ← m.readValue "multiplier" Decimal.parseSingle? ({} : TableSettings).multiplier
  let mode := (m.value? "bucket-mode").getD "divide"
  let spec : SyntheticSpec :=
    { order, vocabularySize := vocabulary.toUInt32, sentences, maxLength, training,
      seed := seed.toUInt64 }
  .ok (.synth { modelPath, corpusPath, spec, multiplier, mode })

def ofQuery (m : Matched) : Except Refusal Request := do
  let modelPath ← m.path 0 "MODEL"
  let inputPath ← m.path 1 "INPUT"
  let depth ← m.readValue? "depth" (parseCount? maxCount)
  let threads ← m.readValue? "threads" (parseCount? maxCount)
  let settingsPath ← m.readValue? "config" parsePath?
  .ok (.query
    { modelPath, inputPath, depth, threads, settingsPath, verbose := m.has "verbose" })

def ofInfo (m : Matched) : Except Refusal Request := do
  .ok (.info (← m.path 0 "MODEL"))

def ofTrial (m : Matched) : Except Refusal Request := do
  let d : TrialSpec := {}
  let entries ← m.readValue "entries" (parseCount? maxCount) d.entries
  let lookups ← m.readValue "lookups" (parseCount? maxCount) d.lookups
  let multiplier ← m.readValue "multiplier" Decimal.parseSingle? d.multiplier
  let queueDepth ← m.readValue "queue-depth" (parseCount? maxCount) d.queueDepth
  let seed ← m.readValue "seed" (parseCount? maxCount) d.seed.toNat
  .ok (.tableTrial { d with entries, lookups, multiplier, queueDepth, seed := seed.toUInt64 })

/-- Asks for help on a subcommand, or on all of them. A subcommand has none below it, so that a
second word is always wrong. -/
def ofHelp : List String → Refusal
  | [] => .help none
  | word :: more =>
    if word == "help" || specs.any (·.name == word) then
      more.head?.elim (.help (some word)) .unknownCommand
    else .unknownCommand word

/-- Reads a command line. -/
def ofArguments : List String → Except Refusal Request
  | [] => .error .noCommand
  | word :: words =>
    match word with
    | "synth" => do ofSynth (← synthSpec.read {} none words)
    | "query" => do ofQuery (← querySpec.read {} none words)
    | "info" => do ofInfo (← infoSpec.read {} none words)
    | "table-bench" => do ofTrial (← trialSpec.read {} none words)
    | "help" => .error (ofHelp words)
    | "--help" => .error (.help none)
    | "--version" => .error .version
    | _ => match word.toList with
      | '-' :: 'h' :: _ => .error (.help none)
      | '-' :: 'V' :: _ => .error .version
      | '-' :: _ => .error (.unknownArgument word)
      | _ => .error (.unknownCommand word)

end Request

end Ngram
