import Ngram.Command.Request
import Ngram.Corpus.Scorer
import Ngram.Json.Settings
import Ngram.Model.Image

/-!
# Carrying requests out

A request reads and writes files and prints lines. It reaches them through a `Host`, so that the
same steps run against a real file system or a list of files held in memory. How a request ends is
its `Outcome`, and every outcome has an exit status.
-/

namespace Ngram

/-- What a request needs from its surroundings. -/
structure Host (m : Type → Type) where
  /-- The contents of a file, if it can be read. -/
  contents : String → m (Option Bytes)
  /-- Writes a file, and says whether that was possible. -/
  save : String → Bytes → m Bool
  /-- What the standard input delivers. -/
  input : m Source
  print : String → m Unit
  /-- A clock, in nanoseconds. -/
  clock : m Nat

/-- How a request ends. -/
inductive Outcome where
  | done
  | refused (r : Refusal)
  | failed (e : Error)
  /-- The corpus of a synthetic workload could not be written. -/
  | corpusNotWritten
deriving DecidableEq

namespace Outcome

/-- The exit status of the program. -/
def status : Outcome → UInt8
  | done => 0
  | refused (.help _) => 0
  | refused .version => 0
  | refused _ => 2
  | failed .outOfRange => 101
  | failed _ => 1
  | corpusNotWritten => 1

end Outcome

/-- What a refused command line is answered with. -/
def Refusal.message : Refusal → String
  | .unknownArgument word => s!"unexpected argument: {word}"
  | .unknownCommand word => s!"unrecognized subcommand: {word}"
  | .noCommand => "a subcommand is required: synth, query, info or table-bench"
  | .missingValue option => s!"a value is required for --{option}"
  | .unwantedValue option => s!"--{option} takes no value"
  | .repeated option => s!"--{option} cannot be used multiple times"
  | .missing positional => "required arguments are missing: " ++ String.intercalate " " positional
  | .invalidValue name value => s!"invalid value for {name}: {value}"
  | .help none => "Usage: alice-lm <synth|query|info|table-bench> [OPTIONS]"
  | .help (some "help") => "Usage: alice-lm help [COMMAND]..."
  | .help (some command) => s!"Usage: alice-lm {command} [OPTIONS]"
  | .version => "alice-lm 1.0.0"

namespace Perform

variable {m : Type → Type} [Monad m]

/-- Blanks in front of a text. -/
def padLeft (width : Nat) (s : String) : String :=
  String.ofList (List.replicate (width - s.length) ' ') ++ s

/-- Blanks behind a text. -/
def padRight (width : Nat) (s : String) : String :=
  s ++ String.ofList (List.replicate (width - s.length) ' ')

/-- A length of time in milliseconds with two places. -/
def milliseconds (nanos : Nat) : String :=
  (Double.ofValue (nanos.toUInt64.toFloat / 1e9 * 1000.0)).fixed 2 ++ "ms"

/-- The average length of one of some steps, in nanoseconds. -/
def average (nanos steps : Nat) : Double := if steps = 0 then .zero else .ratio nanos steps

/-- Prints lines one after another. -/
def printAll (host : Host m) (lines : List String) : m Unit := lines.forM host.print

/-- Makes a model and a corpus, writes them, and says what they are. -/
def synth (host : Host m) (r : SynthRequest) : m Outcome := do
  let start ← host.clock
  match BucketMode.parse r.mode with
  | .error e => return .failed e
  | .ok mode =>
    match Synthetic.generate r.spec { multiplier := r.multiplier, mode } with
    | .error e => return .failed e
    | .ok w =>
      unless ← host.save r.modelPath w.model.toBytes do
        return .failed .unreadable
      let width := widthOf w.model.vocabulary.bound
      match width.encode w.corpus with
      | .error e => return .failed e
      | .ok bs =>
        unless ← host.save r.corpusPath bs do
          return .corpusNotWritten
        let stop ← host.clock
        printAll host
          [ "ALICE-LM Synthetic Workload"
          , "==========================="
          , s!"Model:      {r.modelPath}"
          , s!"Corpus:     {r.corpusPath}"
          , s!"Order:      {r.spec.order}"
          , s!"Counts:     {bracketed w.model.store.counts}"
          , s!"Sentences:  {r.spec.sentences}"
          , s!"Words:      {w.corpus.length}"
          , s!"Width:      {width.bytes} bytes"
          , s!"Time:       {milliseconds (stop - start)}" ]
        return .done

/-- The settings of a file, if one is named. -/
def readSettings (host : Host m) : Option String → m (Except Error PipelineSettings)
  | none => return .ok {}
  | some path => do
    match ← host.contents path with
    | none => return .error .unreadable
    | some bs => return PipelineSettings.ofBytes bs

/-- The report of a scored corpus. -/
def queryLines (r : QueryRequest) (order : Nat) (report : RunReport) (load : Nat)
    (elapsed : Duration) : List String :=
  let query := elapsed.nanos
  let speed := (wordsPerSecond report.words.toUInt64 elapsed).fixed 0
  s!"Sum is {report.total.text}" ::
    if r.verbose then
      [ ""
      , "ALICE-LM Query"
      , "=============="
      , s!"Model:      {r.modelPath}"
      , s!"Input:      {r.inputPath}"
      , s!"Order:      {order}"
      , s!"Depth:      {report.depth}"
      , s!"Threads:    {report.threads}"
      , ""
      , s!"Sentences:  {report.sentences}"
      , s!"Words:      {report.words}"
      , s!"Steps:      {report.steps}"
      , s!"Load:       {milliseconds load}"
      , s!"Query:      {milliseconds query}"
      , s!"Worker:     {milliseconds query}"
      , s!"Throughput: {speed} words/s" ]
    else [s!"{report.words} words in {milliseconds query} ({speed} words/s)"]

/-- Scores a corpus. Settings of the command line stand over those of a file. -/
def query (host : Host m) (r : QueryRequest) : m Outcome := do
  match ← readSettings host r.settingsPath with
  | .error e => return .failed e
  | .ok settings =>
    let settings := { settings with
      depth := r.depth.getD settings.depth
      threads := r.threads.getD settings.threads }
    let start ← host.clock
    match Model.ofFile (← host.contents r.modelPath) with
    | .error e => return .failed e
    | .ok model =>
      let loaded ← host.clock
      match Scorer.ofSettings model settings with
      | .error e => return .failed e
      | .ok scorer =>
        let result ←
          if r.inputPath == "-" then pure (scorer.scoreStream (← host.input))
          else pure (scorer.scoreFile (← host.contents r.inputPath))
        match result with
        | .error e => return .failed e
        | .ok report =>
          let stop ← host.clock
          match Duration.ofNanos? (stop - loaded) with
          | .error e => return .failed e
          | .ok elapsed =>
            printAll host (queryLines r model.store.order report (loaded - start) elapsed)
            return .done

/-- A line of the list of tables. -/
def tableLine (order entries buckets load memory : String) : String :=
  s!"  {padRight 6 order} {padLeft 12 entries} {padLeft 12 buckets} {padLeft 8 load} " ++
    padLeft 12 memory

/-- The description of a model in a file of a given size. -/
def infoLines (path : String) (size : Nat) (model : Model) : List String :=
  let v := model.vocabulary
  [ "ALICE-LM Model Information"
  , "=========================="
  , s!"File:            {path}"
  , s!"Image Size:      {size} bytes"
  , s!"Order:           {model.store.order}"
  , s!"Vocabulary:      {v.bound}"
  , s!"Word Width:      {(widthOf v.bound).bytes} bytes"
  , s!"Specials:        <unk>={v.unknown} <s>={v.beginSentence} </s>={v.endSentence}"
  , ""
  , "Tables:"
  , tableLine "Order" "Entries" "Buckets" "Load" "Bytes" ] ++
    model.tableStats.map fun t =>
      tableLine (Decimal.digits t.order) (Decimal.digits t.entries) (Decimal.digits t.buckets)
        (t.load.fixed 3) (Decimal.digits t.memory)

/-- Describes a model. -/
def info (host : Host m) (path : String) : m Outcome := do
  let contents ← host.contents path
  match Model.ofFile contents with
  | .error e => return .failed e
  | .ok model =>
    printAll host (infoLines path (contents.getD []).length model)
    return .done

/-- One trial, with the average times of a key and of a query. -/
def trial (host : Host m) (spec : TrialSpec) (mode : BucketMode) :
    m (Except Error (TrialResult × Double × Double)) := do
  match TableTrial.plan spec with
  | .error e => return .error e
  | .ok plan =>
    let start ← host.clock
    match TableTrial.load plan mode with
    | .error e => return .error e
    | .ok table =>
      let loaded ← host.clock
      match TableTrial.look plan table with
      | .error e => return .error e
      | .ok found =>
        let result := TableTrial.result table found
        -- the condition holds; the clock is read when the result is there
        let stop ← if result.hits ≤ spec.lookups then host.clock else pure loaded
        return .ok (result, average (loaded - start) spec.entries,
          average (stop - loaded) spec.lookups)

/-- The report of a trial. -/
def trialLine (r : TrialResult) (insert lookup : Double) : String :=
  s!"{padRight 7 r.mode.name} buckets {padLeft 10 (Decimal.digits r.buckets)}  insert " ++
    s!"{padLeft 7 (insert.fixed 2)} ns  lookup {padLeft 7 (lookup.fixed 2)} ns  hits {r.hits}"

/-- Tries the probe table in both modes. -/
def tableTrial (host : Host m) (spec : TrialSpec) : m Outcome := do
  printAll host
    [ "ALICE-LM Probe Table Benchmark"
    , "=============================="
    , s!"Entries:     {spec.entries}"
    , s!"Lookups:     {spec.lookups}"
    , s!"Multiplier:  {spec.multiplier.text}"
    , s!"Queue Depth: {spec.queueDepth}"
    , "" ]
  match ← trial host spec .divide with
  | .error e => return .failed e
  | .ok (first, insert, lookup) =>
    match ← trial host spec .mask with
    | .error e => return .failed e
    | .ok (second, insert', lookup') =>
      printAll host [trialLine first insert lookup, trialLine second insert' lookup']
      return .done

/-- Carries a request out. -/
def request (host : Host m) : Request → m Outcome
  | .synth r => synth host r
  | .query r => query host r
  | .info path => info host path
  | .tableTrial spec => tableTrial host spec

/-- Carries a command line out. Help and version are printed; other refusals are not. -/
def commandLine (host : Host m) (arguments : List String) : m Outcome := do
  match Request.ofArguments arguments with
  | .ok r => request host r
  | .error r =>
    match r with
    | .help _ | .version => host.print r.message
    | _ => pure ()
    return .refused r

end Perform

end Ngram
