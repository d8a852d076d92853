import Ngram.Hash.Table
import Ngram.Model.Weights
import Ngram.Workload.ChaCha
import Ngram.Workload.Queue

/-!
# Trials of the probe table

Random keys are put into a table of a power of two of buckets, each under its number, and then
looked up. A query is located when it comes in and completed a fixed number of queries later, from a
queue; what is left in the queue at the end is completed then. A key that was drawn before is not
put in again, so its first number counts.
-/

namespace Ngram

/-- The shape of a trial. -/
structure TrialSpec where
  entries : Nat := 2 ^ 20
  lookups : Nat := 2 ^ 22
  multiplier : Single := ⟨0x3fc00000⟩
  /-- Queries in flight between the two phases of a search. -/
  queueDepth : Nat := 8
  /-- The part of the queries that ask for a key that was drawn. -/
  hitRatio : Double := ⟨0x3fe0000000000000⟩
  seed : UInt64 := 42
deriving DecidableEq, Inhabited

/-- What a trial has found. -/
structure TrialResult where
  mode : BucketMode
  buckets : Nat
  /-- Different keys. -/
  entries : Nat
  hits : Nat
  /-- The sum of the numbers that were found, modulo `2 ^ 64`. -/
  checksum : UInt64
deriving DecidableEq

namespace TableTrial

/-- A query between its two phases: its key and home bucket. -/
abbrev InFlight := UInt64 × Nat

/-- What the completed queries have found. -/
structure Found where
  hits : Nat := 0
  checksum : UInt64 := 0
deriving DecidableEq

/-- Puts keys in under their numbers, from `i` on. -/
def insertKeys (t : Table KeyValue) (i : UInt64) : List UInt64 → Except Error (Table KeyValue)
  | [] => .ok t
  | key :: keys =>
    match t.insert ⟨key, i⟩ with
    | (.ok (), t) => insertKeys t (i + 1) keys
    | (.error (.duplicateKey _), t) => insertKeys t (i + 1) keys
    | (.error e, _) => .error e

/-- Completes one query. -/
def finish (t : Table KeyValue) (f : Found) (q : InFlight) : Found :=
  match t.complete q.1 q.2 with
  | some e => ⟨f.hits + 1, f.checksum + e.value⟩
  | none => f

/-- Completes the query that is next, once the queue is full. -/
def makeRoom (t : Table KeyValue) (depth : Nat) (queue : Queue InFlight) (f : Found) :
    Queue InFlight × Found :=
  if queue.length = depth then
    match queue.pop? with
    | some (q, queue) => (queue, finish t f q)
    | none => (queue, f)
  else (queue, f)

/-- Sends queries through the queue. -/
def pump (t : Table KeyValue) (depth : Nat) (queue : Queue InFlight) (f : Found) :
    List UInt64 → Found
  | [] => queue.toList.foldl (finish t) f
  | key :: keys =>
    let (queue, f) := makeRoom t depth queue f
    pump t depth (queue.push (key, t.locate key)) f keys

/-- The keys and queries of a trial, and how they are to be handled. -/
structure Plan where
  keys : List UInt64
  queries : List UInt64
  multiplier : Single
  depth : Nat
deriving DecidableEq

/-- The buckets for some keys, a power of two so that both modes accept it. -/
def bucketCount (keys : Nat) (multiplier : Single) : Nat :=
  nextPowerOfTwo (Table.bucketsFor keys multiplier)

/-- The first part of a trial: a table with all keys. -/
def load (p : Plan) (mode : BucketMode) : Except Error (Table KeyValue) := do
  let empty ← Table.withBuckets (bucketCount p.keys.length p.multiplier) mode
  insertKeys empty 0 p.keys

/-- The second part of a trial: all queries, if a queue with room for as many as may be in flight
can be held. A query in the queue is a key of eight bytes, and has its home bucket with it. -/
def look (p : Plan) (t : Table KeyValue) : Except Error Found :=
  if p.depth * 16 ≤ maxBytes then .ok (pump t p.depth {} {} p.queries) else .error .outOfRange

/-- What a trial with a table has found. -/
def result (t : Table KeyValue) (f : Found) : TrialResult :=
  ⟨t.mode, t.size, t.count, f.hits, f.checksum⟩

/-- Both parts of a trial. -/
def measure (p : Plan) (mode : BucketMode) : Except Error TrialResult := do
  let t ← load p mode
  let found ← look p t
  .ok (result t found)

variable {σ : Type}

/-- A key; zero is none. -/
def drawKey (d : Draws σ) (s : σ) : UInt64 × σ :=
  let (n, s) := d.upTo (2 ^ 64 - 2) s
  (n.val.toUInt64 + 1, s)

/-- A query: one of the keys, or any odd number. -/
def drawQuery (d : Draws σ) (ratio : Double) (keys : Array UInt64) (s : σ) : UInt64 × σ :=
  let (hit, s) := d.chance ratio s
  if hit then
    let (i, s) := d.upTo (keys.size - 1) s
    (keys[i.val]?.getD 0, s)
  else
    let (n, s) := d.upTo (2 ^ 64 - 1) s
    (n.val.toUInt64 ||| 1, s)

/-- A part of a whole. -/
def isRatio (p : Double) : Bool := 0 ≤ p.value && p.value ≤ 1

/-- Table and queries are small enough to be held. -/
def fits (spec : TrialSpec) : Bool :=
  bucketCount spec.entries spec.multiplier * Entry.bytes KeyValue ≤ maxBytes &&
    spec.lookups * 8 ≤ maxBytes

/-- Keys, then queries. -/
def draw (d : Draws σ) (spec : TrialSpec) (s : σ) : Plan :=
  let (keys, s) := Draws.times spec.entries (drawKey d) s
  let (queries, _) := Draws.times spec.lookups (drawQuery d spec.hitRatio keys) s
  ⟨keys.toList, queries.toList, spec.multiplier, spec.queueDepth⟩

/-- Draws a trial of a given shape. -/
def planWith (d : Draws σ) (spec : TrialSpec) (s : σ) : Except Error Plan :=
  if spec.queueDepth = 0 ∨ spec.entries = 0 then .error (.setting .trialSize)
  else if !fits spec then .error .outOfRange
  else if 0 < spec.lookups ∧ !isRatio spec.hitRatio then .error .outOfRange
  else .ok (draw d spec s)

/-- Draws a trial, from the seed alone. -/
def plan (spec : TrialSpec) : Except Error Plan := planWith ChaCha.draws spec (.ofSeed spec.seed)

/-- A trial of a given shape. -/
def run (spec : TrialSpec) (mode : BucketMode) : Except Error TrialResult := do
  measure (← plan spec) mode

/-- Both modes with the same keys and queries. -/
def runAll (spec : TrialSpec) : Except Error (List TrialResult) :=
  [BucketMode.divide, .mask].mapM (run spec)

end TableTrial

end Ngram
