import Ngram.Error

/-!
# Settings

Two records of settings, each with a check that says whether its values are accepted. None of them
changes a score: they trade memory for speed, and order the work differently.
-/

namespace Ngram

/-- How a key is reduced to a bucket: by division, or by masking with a power of two. -/
inductive BucketMode where
  | divide
  | mask
deriving DecidableEq, Inhabited

namespace BucketMode

/-- The written name of a mode. -/
def name : BucketMode → String
  | divide => "divide"
  | mask => "mask"

/-- The lower case of a letter as far as it decides about a name of Latin letters: of all
characters only the capital letters and the Kelvin sign have such a letter as their lower case. -/
def lower (c : Char) : Char := if c == '\u212a' then 'k' else c.toLower

/-- Reads a mode by one of its names, in any case. -/
def parse (text : String) : Except Error BucketMode :=
  match String.ofList (text.toList.map lower) with
  | "divide" | "div" => .ok divide
  | "mask" | "power2" => .ok mask
  | _ => .error (.setting (.bucketMode text))

end BucketMode

/-- The largest count that can be written: that of 64 bits. -/
def maxCount : Nat := 2 ^ 64 - 1

/-- The most bytes that one list can take up in memory. -/
def maxBytes : Nat := 2 ^ 63 - 1

/-- How probe tables are sized. -/
structure TableSettings where
  /-- Buckets per entry. -/
  multiplier : Single := ⟨0x3fc00000⟩
  mode : BucketMode := .divide
deriving DecidableEq, Inhabited

/-- The multiplier has to be finite and at least one. -/
def TableSettings.validate (s : TableSettings) : Except Error Unit :=
  if s.multiplier.isFiniteFromOne then .ok () else .error (.setting (.multiplier s.multiplier))

/-- How a corpus is scored. -/
structure PipelineSettings where
  /-- Sentences in flight at once. -/
  depth : Nat := 1
  /-- Parts that a corpus is cut into. -/
  threads : Nat := 1
  /-- The longest sentence, its end included. -/
  maxWords : Nat := 4096
deriving DecidableEq, Inhabited

/-- A setting has to lie between one and its maximum. -/
def checkRange (name : String) (value max : Nat) : Except Error Unit :=
  if value = 0 ∨ max < value then .error (.setting (.range name max value)) else .ok ()

/-- The fields are checked in order, and the first that is out of range is reported. -/
def PipelineSettings.validate (s : PipelineSettings) : Except Error Unit := do
  checkRange "prefetch_depth" s.depth 1024
  checkRange "threads" s.threads 1024
  checkRange "max_sentence_words" s.maxWords (2 ^ 20)

theorem checkRange_eq_ok_iff (name : String) {value max : Nat} :
    checkRange name value max = .ok () ↔ 0 < value ∧ value ≤ max := by
  unfold checkRange
  split
  next h => exact ⟨nofun, fun _ => by omega⟩
  next h => exact ⟨fun _ => by omega, fun _ => rfl⟩

theorem PipelineSettings.validate_eq_ok_iff {s : PipelineSettings} :
    s.validate = .ok () ↔ (0 < s.depth ∧ s.depth ≤ 1024) ∧ (0 < s.threads ∧ s.threads ≤ 1024) ∧
      0 < s.maxWords ∧ s.maxWords ≤ 2 ^ 20 := by
  rw [← checkRange_eq_ok_iff "prefetch_depth", ← checkRange_eq_ok_iff "threads",
    ← checkRange_eq_ok_iff "max_sentence_words", validate]
  cases checkRange "prefetch_depth" s.depth 1024 with
  | error e => exact ⟨nofun, fun h => nomatch h.1⟩
  | ok =>
    cases checkRange "threads" s.threads 1024 with
    | error e => exact ⟨nofun, fun h => nomatch h.2.1⟩
    | ok => exact ⟨fun h => ⟨rfl, rfl, h⟩, fun h => h.2.2⟩

end Ngram
