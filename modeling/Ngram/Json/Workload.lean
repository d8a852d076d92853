import Ngram.Json.Settings
import Ngram.Workload.Synthetic
import Ngram.Workload.TableTrial

/-!
# Workloads as JSON

The shapes of workloads are read like settings, but none of their fields has a default.
-/

namespace Ngram

open Json

def SyntheticSpec.ofJson? (v : Value) : Option SyntheticSpec := do
  match ← fields? ["order", "vocab_size", "sentences", "max_sentence_len", "training_sentences",
      "seed"] v with
  | [order, vocabularySize, sentences, maxLength, training, seed] =>
    some
      { order := ← required? (count? 255) order
        vocabularySize := (← required? (count? (2 ^ 32 - 1)) vocabularySize).toUInt32
        sentences := ← required? (count? maxCount) sentences
        maxLength := ← required? (count? maxCount) maxLength
        training := ← required? (count? maxCount) training
        seed := (← required? (count? maxCount) seed).toUInt64 }
  | _ => none

def SyntheticSpec.toJson (s : SyntheticSpec) : String :=
  compact [("order", s.order), ("vocab_size", s.vocabularySize.toNat), ("sentences", s.sentences),
    ("max_sentence_len", s.maxLength), ("training_sentences", s.training), ("seed", s.seed.toNat)]

def TrialSpec.ofJson? (v : Value) : Option TrialSpec := do
  match ← fields? ["entries", "lookups", "multiplier", "queue_depth", "hit_ratio", "seed"] v with
  | [entries, lookups, multiplier, queueDepth, hitRatio, seed] =>
    some
      { entries := ← required? (count? maxCount) entries
        lookups := ← required? (count? maxCount) lookups
        multiplier := ← required? single? multiplier
        queueDepth := ← required? (count? maxCount) queueDepth
        hitRatio := ← required? double? hitRatio
        seed := (← required? (count? maxCount) seed).toUInt64 }
  | _ => none

end Ngram
