import Ngram.Score.State

/-!
# Scoring one word, step by step

A walk scores one word after a context. It starts at the single word and takes in one context word
per step, up to the longest n-gram that is stored, and ends early when an n-gram is missing, when
the context is used up, or when no longer n-gram ends in what was matched.

The home bucket of the next order is worked out at the end of one step and scanned at the start of
the next, so that a caller can advance other walks in between. A walk is started anew for every
word. Its buffers are not cleared then; only the first `contextLength` words of `context` belong to
the word that is being scored.
-/

namespace Ngram

/-- What a step leaves to do. -/
inductive Step where
  /-- The next order has been located and waits for its scan. -/
  | waiting
  /-- Score and state are final. -/
  | done
deriving DecidableEq, Inhabited

/-- The scoring of one word. -/
structure Walk where
  context : Vector Word contextSize
  contextLength : Nat
  /-- The number of context words that were matched. -/
  taken : Nat
  /-- The next order above the single words, less two. -/
  level : Nat
  node : UInt64
  cursor : Nat
  finished : Bool
  score : Score
  /-- The state for the next word. -/
  out : State
deriving DecidableEq

namespace Walk

/-- A walk that was never started. -/
def idle : Walk :=
  { context := Vector.replicate _ 0, contextLength := 0, taken := 0, level := 0, node := 0,
    cursor := 0, finished := true, score := .none, out := .empty }

instance : Inhabited Walk := ⟨idle⟩

/-- A buffer with a list written over its front. -/
def overwrite {n : Nat} {α : Type} (buffer : Vector α n) (front : List α) : Vector α n :=
  Vector.ofFn fun i => (front[i.val]?).getD buffer[i]

/-- Takes in the next context word and locates the n-gram that ends there. -/
def issue (s : Store) (w : Walk) : Except Error Walk :=
  match w.context[w.taken]? with
  | some word =>
    match s.locate w.level w.node word with
    | .ok (node, cursor) => .ok { w with node, cursor }
    | .error e => .error e
  | none => .error .outOfRange

/-- Ends a walk: the state for the next word keeps the context words that it still needs. -/
def finish (w : Walk) : Except Error Walk :=
  let keep := w.out.length - 1
  if keep < contextSize then
    let words := Vector.ofFn fun i : Fin contextSize =>
      if i.val - 1 < keep ∧ 0 < i.val then w.context[i.val - 1] else w.out.words[i]
    .ok { w with out := { w.out with words }, finished := true }
  else .error .outOfRange

/-- Ends a walk as the last act of a step. -/
def finishStep (w : Walk) : Except Error (Step × Walk) :=
  match w.finish with
  | .ok w => .ok (.done, w)
  | .error e => .error e

/-- The state after a single word, as far as the word alone determines it. -/
def unigramState (order : Nat) (word : Word) (hit : Hit) : State :=
  if 1 < order then
    { words := State.empty.words.set 0 word contextSize_pos
      backoffs := State.empty.backoffs.set 0 hit.backoff contextSize_pos
      length := if hasExtension hit.backoff then 1 else 0 }
  else .empty

/-- A walk set back to the hit of a single word, with a new context written over the old one. -/
def restart (order : Nat) (w : Walk) (context : List Word) (word : Word) (hit : Hit) : Walk :=
  { context := overwrite w.context context
    contextLength := context.length
    taken := 0
    level := 0
    node := word.toUInt64
    cursor := 0
    finished := false
    score := .ofHit hit 1
    out := unigramState order word hit }

/-- Starts to score `word` after `context`, most recent word first. A context longer than the order
allows is cut. -/
def start (s : Store) (w : Walk) (context : List Word) (word : Word) :
    Except Error (Step × Walk) :=
  let context := context.take (s.order - 1)
  if context.length ≤ contextSize then
    match s.unigram word with
    | .error e => .error e
    | .ok hit =>
      let w := w.restart s.order context word hit
      if w.contextLength = 0 then w.finishStep
      else if 2 < s.order then
        match w.issue s with
        | .ok w => .ok (.waiting, w)
        | .error e => .error e
      else .ok (.waiting, w)
  else .error .outOfRange

/-- Takes the answer of the highest order. There is nothing longer, found or not. -/
def takeLongest (order : Nat) (w : Walk) : Option Single → Walk
  | some prob =>
    { w with score :=
        { w.score with prob, rest := prob, matched := order, independentLeft := true } }
  | none => { w with score := { w.score with independentLeft := true } }

/-- Looks the whole context up at the highest order. -/
def lookLongest (s : Store) (w : Walk) : Except Error Walk :=
  match w.context[w.taken]? with
  | some word => .ok (w.takeLongest s.order (s.longestProb w.node word))
  | none => .error .outOfRange

/-- Moves a walk on to an n-gram that was found. -/
def advance (w : Walk) (hit : Hit) : Except Error Walk :=
  let matched := w.level + 2
  if h : matched - 1 < contextSize then
    .ok { w with
      score := .ofHit hit matched
      out := { w.out with
        backoffs := w.out.backoffs.set (matched - 1) hit.backoff
        length := if hasExtension hit.backoff then matched else w.out.length }
      level := w.level + 1
      taken := w.taken + 1 }
  else .error .outOfRange

/-- Locates the next n-gram, if there is one left to look for below the highest order. -/
def prepare (s : Store) (w : Walk) : Except Error Walk :=
  if w.taken ≠ w.contextLength ∧ w.level + 2 ≠ s.order then w.issue s else .ok w

/-- Advances a walk by one order. A finished walk stays as it is. -/
def step (s : Store) (w : Walk) : Except Error (Step × Walk) :=
  if w.finished then .ok (.done, w)
  else if w.taken = w.contextLength ∨ w.score.independentLeft then w.finishStep
  else if w.level + 2 = s.order then
    match w.lookLongest s with
    | .ok w => w.finishStep
    | .error e => .error e
  else
    match s.complete w.level w.node w.cursor with
    | .error e => .error e
    -- with more words in front it is not looked for either
    | .ok none => finishStep { w with score := { w.score with independentLeft := true } }
    | .ok (some hit) =>
      match w.advance hit with
      | .error e => .error e
      | .ok w =>
        match w.prepare s with
        | .ok w => .ok (.waiting, w)
        | .error e => .error e

theorem finishStep_ne_waiting {w w' : Walk} : w.finishStep ≠ .ok (.waiting, w') := by
  unfold finishStep
  split <;> simp

theorem issue_keeps {s : Store} {w w' : Walk} (h : w.issue s = .ok w') :
    w'.level = w.level ∧ w'.finished = w.finished := by
  unfold issue at h
  split at h
  next =>
    split at h
    next => cases h; exact ⟨rfl, rfl⟩
    next => cases h
  next => cases h

theorem prepare_keeps {s : Store} {w w' : Walk} (h : w.prepare s = .ok w') :
    w'.level = w.level ∧ w'.finished = w.finished := by
  unfold prepare at h
  split at h
  next => exact issue_keeps h
  next => cases h; exact ⟨rfl, rfl⟩

theorem advance_keeps {w w' : Walk} {hit : Hit} (h : w.advance hit = .ok w') :
    w'.level = w.level + 1 ∧ w'.finished = w.finished := by
  unfold advance at h
  dsimp only at h
  split at h
  next => cases h; exact ⟨rfl, rfl⟩
  next => cases h

/-- A step that leaves something to do has used up one of the tables in between. -/
theorem step_waiting {s : Store} {w w' : Walk} (h : w.step s = .ok (.waiting, w')) :
    w.level < s.middle.size ∧ w'.level = w.level + 1 ∧ w.finished = false ∧
      w'.finished = false := by
  unfold step at h
  split at h
  next => cases h
  next hf =>
    split at h
    next => exact absurd h finishStep_ne_waiting
    next =>
      split at h
      next =>
        split at h
        next => exact absurd h finishStep_ne_waiting
        next => cases h
      next =>
        split at h
        next => cases h
        next => exact absurd h finishStep_ne_waiting
        next hit hc =>
          have hl : w.level < s.middle.size := by
            unfold Store.complete at hc
            split at hc
            next t ht => exact (Array.getElem?_eq_some_iff.1 ht).1
            next => cases hc
          split at h
          next => cases h
          next w₁ ha =>
            split at h
            next w₂ hp =>
              cases h
              have h₁ := advance_keeps ha
              have h₂ := prepare_keeps hp
              have hf : w.finished = false := by simpa using hf
              exact ⟨hl, h₂.1.trans h₁.1, hf, h₂.2.trans (h₁.2.trans hf)⟩
            next => cases h

/-- Steps a walk to its end. -/
def run (s : Store) (w : Walk) : Except Error Walk :=
  match _h : w.step s with
  | .error e => .error e
  | .ok (.done, w) => .ok w
  | .ok (.waiting, w) => w.run s
termination_by s.middle.size - w.level
decreasing_by
  have := step_waiting _h
  omega

/-- Scores `word` after `context` without a pause. -/
def scoreWord (s : Store) (w : Walk) (context : List Word) (word : Word) : Except Error Walk :=
  match w.start s context word with
  | .error e => .error e
  | .ok (.done, w) => .ok w
  | .ok (.waiting, w) => w.run s

end Walk

end Ngram
