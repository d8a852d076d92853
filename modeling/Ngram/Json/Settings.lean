import Ngram.Json.Value
import Ngram.Settings

/-!
# Settings as JSON

The names under which settings are written, and how they are read back: a record as an object or as
the list of its fields, a missing field by its default, a mode by its name, or as the only key of an
object with the value null. Any fault of the text is the same error; values out of range are a
matter of the check that follows.
-/

namespace Ngram

open Json

/-- Reads the exact name of a mode. -/
def BucketMode.named? (s : RawText) : Option BucketMode := do
  match ← text? s with
  | "divide" => some .divide
  | "mask" => some .mask
  | _ => none

def BucketMode.ofJson? : Value → Option BucketMode
  | .string s => BucketMode.named? s
  | .object [(s, .null)] => BucketMode.named? s
  | _ => none

def PipelineSettings.ofJson? (v : Value) : Option PipelineSettings := do
  match ← fields? ["prefetch_depth", "threads", "max_sentence_words"] v with
  | [depth, threads, maxWords] =>
    let d : PipelineSettings := {}
    some
      { depth := ← optional? (count? maxCount) d.depth depth
        threads := ← optional? (count? maxCount) d.threads threads
        maxWords := ← optional? (count? maxCount) d.maxWords maxWords }
  | _ => none

def PipelineSettings.toJson (s : PipelineSettings) : String :=
  compact [("prefetch_depth", s.depth), ("threads", s.threads), ("max_sentence_words", s.maxWords)]

/-- Reads settings from a text and checks them. -/
def PipelineSettings.ofBytes (bs : Bytes) : Except Error PipelineSettings := do
  match (parse? bs).bind PipelineSettings.ofJson? with
  | none => .error .json
  | some s =>
    s.validate
    .ok s

def TableSettings.ofJson? (v : Value) : Option TableSettings := do
  match ← fields? ["multiplier", "bucket_mode"] v with
  | [multiplier, mode] =>
    let d : TableSettings := {}
    some
      { multiplier := ← optional? single? d.multiplier multiplier
        mode := ← optional? BucketMode.ofJson? d.mode mode }
  | _ => none

end Ngram
