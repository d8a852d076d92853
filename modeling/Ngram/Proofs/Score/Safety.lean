import Ngram.Proofs.Hash.Checked
import Ngram.Proofs.Score.Meaning
import Ngram.Proofs.Stored.Refusal

/-!
# No accepted model can make scoring go wrong

What is loaded is not trusted: the buckets of a table may hold anything, in any order. Scoring is
safe nevertheless, for any state that fits its buffers. Three things are shown of it.

> `Store.checked`: no look-up reads outside of an array or overflows.
> `Walk.Meets.inRange`: at each step of a walk its counters agree and stay in their ranges.
> `Model.safe`: a score comes about, with a match that is no longer than the context and the order
> allow, and a state that fits again.

So bytes are refused for what is wrong with them, or they are a model that is safe to use
(`Model.ofBytes_safe`).
-/

namespace Ngram

namespace Store

/-! ## Look-ups -/

/-- The first phase at order `level + 2` with each step checked. -/
def locateChecked (s : Store) (level : Nat) (node : UInt64) (word : Word) :
    Except Error (UInt64 × Nat) :=
  match s.middle[level]?, combine? node word with
  | some t, some node => (t.locateChecked node).map fun home => (node, home)
  | _, _ => .error .outOfRange

/-- The second phase at order `level + 2` with each step checked. -/
def completeChecked (s : Store) (level : Nat) (node : UInt64) (cursor : Nat) :
    Except Error (Option Hit) :=
  match s.middle[level]? with
  | some t => (t.completeChecked node cursor).map fun e => e.map fun e => e.weights.hit node
  | none => .error .outOfRange

/-- The look-up at the highest order with each step checked. -/
def longestProbChecked (s : Store) (node : UInt64) (word : Word) : Except Error (Option Single) :=
  match combine? node word with
  | some key => (s.longest.findChecked key).map fun e => e.map LongestEntry.prob
  | none => .error .outOfRange

/-- No look-up reads outside of an array or overflows: with each step checked it does the same. -/
structure Checked (s : Store) : Prop where
  locate : ∀ level node word, s.locateChecked level node word = s.locate level node word
  complete : ∀ level node cursor, s.completeChecked level node cursor = s.complete level node cursor
  longest : ∀ node word, s.longestProbChecked node word = .ok (s.longestProb node word)

/-- **All look-ups are safe**, whatever the tables hold. -/
theorem checked (s : Store) : s.Checked where
  locate level node word := by
    rw [locateChecked, Store.locate, combine?_eq]
    cases s.middle[level]? with
    | none => rfl
    | some t =>
      simp only [Buckets.locateChecked_eq]
      rfl
  complete level node cursor := by
    rw [completeChecked, Store.complete]
    cases s.middle[level]? with
    | none => rfl
    | some t =>
      simp only [Buckets.completeChecked_eq]
      rfl
  longest node word := by
    rw [longestProbChecked, combine?_eq]
    simp only [Buckets.findChecked_eq]
    rfl

/-- Where a climb gets to the highest order, it has used up all orders below and one more word of
the context. -/
theorem length_ascend_of_longest {s : Store} {level : Nat} {hit : Hit} {context : List Word}
    {p : Single} (h : (s.ascend level hit context).2 = some p) :
    level + (s.ascend level hit context).1.length + 2 = s.order ∧
      (s.ascend level hit context).1.length < context.length := by
  induction context generalizing level hit with
  | nil => cases h
  | cons c cs ih =>
    rw [ascend] at h ⊢
    split at h
    next => cases h
    next hind =>
      rw [if_neg hind]
      split at h
      next htop =>
        rw [if_pos htop]
        exact ⟨htop, Nat.succ_pos _⟩
      next htop =>
        rw [if_neg htop]
        cases hhit : s.middleHit level (combine hit.extendLeft c) with
        | none =>
          rw [hhit] at h
          cases h
        | some above =>
          rw [hhit] at h
          have := ih h
          simp only [List.length_cons]
          omega

end Store

/-- A climb that gets to the highest order has used up all orders below, and a word more of the
context than it has hits above the single word. -/
theorem Climb.length_of_longest {s : Store} {context : List Word} {word : Word} {p : Single}
    (h : (s.climb context word).longest = some p) :
    (s.climb context word).above.length + 2 = s.order ∧
      (s.climb context word).above.length < context.length := by
  have hlongest : (s.ascend 0 (s.wordHit word) context).2 = some p := h
  obtain ⟨hlast, hlt⟩ := Store.length_ascend_of_longest hlongest
  rw [Nat.zero_add] at hlast
  exact ⟨hlast, hlt⟩

/-- A match has one word at least, and no more than the context and the order allow. -/
theorem Climb.matched_score (s : Store) (context : List Word) (word : Word) :
    let matched := ((s.climb context word).score s.order context.length).matched
    1 ≤ matched ∧ matched ≤ context.length + 1 ∧ matched ≤ s.order := by
  have habove := length_above_climb s context word
  have horder := s.order_pos
  have hmiddle := s.middle_size
  unfold score
  split
  next p hlongest =>
    obtain ⟨hlast, hlt⟩ := length_of_longest hlongest
    refine ⟨horder, ?_, Nat.le_refl _⟩
    dsimp only
    omega
  next =>
    simp only [Score.ofHit]
    omega

namespace Walk

/-! ## Walks -/

variable {s : Store} {context : List Word} {word : Word} {w w' : Walk}

/-- The walks between two steps of the scoring of a word, whatever was scored before it. -/
inductive Meets (s : Store) (context : List Word) (word : Word) : Walk → Prop where
  | start {w₀ w : Walk} (h : w₀.start s context word = .ok (.waiting, w)) : Meets s context word w
  | step {w w' : Walk} (hw : Meets s context word w) (h : w.step s = .ok (.waiting, w')) :
    Meets s context word w'

/-- The counters of a walk agree and stay in their ranges, and what it has located is there. -/
structure InRange (s : Store) (w : Walk) : Prop where
  contextLength_le : w.contextLength ≤ contextSize
  taken_le : w.taken ≤ w.contextLength
  level_eq : w.level = w.taken
  order_le : w.level + 2 ≤ maxOrder
  matched_eq : w.score.matched = w.level + 1
  length_le : w.out.length ≤ w.level + 1
  located : w.taken < w.contextLength → w.level + 2 ≠ s.order →
    ∃ t, s.middle[w.level]? = some t ∧ w.cursor = t.locate w.node ∧ w.cursor < t.slots.size

/-- A walk that waits for its next step is not finished. -/
theorem start_waiting (h : w.start s context word = .ok (.waiting, w')) : w'.finished = false := by
  unfold start at h
  dsimp only at h
  split at h
  next =>
    split at h
    next => cases h
    next hit _ =>
      split at h
      next => exact absurd h finishStep_ne_waiting
      next =>
        split at h
        next =>
          split at h
          next hissue =>
            cases h
            exact (issue_keeps hissue).2
          next => cases h
        next =>
          cases h
          rfl
  next => cases h

/-- A walk between two steps has reached a part of the climb. -/
theorem Meets.reached (h : Meets s context word w) (hword : word.toNat < s.unigrams.size) :
    ∃ c, Reached s (context.take (s.order - 1)) word c w := by
  induction h with
  | @start w₀ w h =>
    obtain ⟨step, w', hstart, -, honway, -⟩ := start_eq w₀ context hword
    rw [h] at hstart
    cases hstart
    rcases honway with ⟨c, hreached, -⟩ | ⟨-, -, hended⟩
    · exact ⟨c, hreached⟩
    · have := start_waiting h
      rw [hended.finished] at this
      cases this
  | @step w w' _ h ih =>
    obtain ⟨c, hreached⟩ := ih
    rcases hreached.step (List.length_take_le _ _) with ⟨hit, w'', hstep, hnext, -⟩ |
      ⟨w'', hstep, -⟩
    · rw [h] at hstep
      cases hstep
      exact ⟨_, hnext⟩
    · rw [h] at hstep
      cases hstep

/-- What has been reached is in range. -/
theorem Reached.inRange {c : Climb} (h : Reached s context word c w)
    (hlen : context.length ≤ s.order - 1) : w.InRange s := by
  have horder : s.order ≤ contextSize + 1 := s.order_le
  have hpos := s.order_pos
  have hmiddle := s.middle_size
  have habove := h.above_le
  have hsize := h.above_le_size
  refine ⟨?_, ?_, ?_, ?_, ?_, ?_, ?_⟩
  · rw [h.contextLength]
    omega
  · rw [h.taken, h.contextLength]
    exact habove
  · rw [h.level, h.taken]
  · rw [h.level]
    have hroom := contextSize_pos
    show c.above.length + 2 ≤ contextSize + 1
    omega
  · rw [h.score, h.level]
    rfl
  · -- only the hits so far can be kept
    have hkept := c.length_kept_le
    rw [h.out, h.level, Climb.underWay]
    split
    next => exact hkept
    next => exact Nat.zero_le _
  · intro hmore horder
    rw [h.taken, h.contextLength] at hmore
    rw [h.level] at horder
    have hloc := h.located _ (List.getElem?_eq_getElem hmore)
    rw [if_neg horder] at hloc
    obtain ⟨-, t, ht, hcursor⟩ := hloc
    rw [h.level]
    exact ⟨t, ht, hcursor, hcursor ▸ t.locate_lt w.node⟩

/-- **Every walk stays in range**, and its next step cannot fail. -/
theorem Meets.inRange (h : Meets s context word w) (hword : word.toNat < s.unigrams.size) :
    w.InRange s ∧ ∃ step w', w.step s = .ok (step, w') := by
  obtain ⟨c, hreached⟩ := h.reached hword
  have hlen := List.length_take_le (s.order - 1) context
  refine ⟨hreached.inRange hlen, ?_⟩
  rcases hreached.step hlen with ⟨hit, w', hstep, -⟩ | ⟨w', hstep, -⟩
  · exact ⟨_, w', hstep⟩
  · exact ⟨_, w', hstep⟩

end Walk

namespace Model

/-! ## Models -/

/-- Scoring with a model cannot go wrong, for any state that fits and any word of the vocabulary. -/
structure Safe (m : Model) : Prop where
  lookups : m.store.Checked
  walks : ∀ (state : State) (word : Word), word < m.vocabulary.bound →
    ∀ w, Walk.Meets m.store state.recent word w →
      w.InRange m.store ∧ ∃ step w', w.step m.store = .ok (step, w')
  scores : ∀ (state : State) (word : Word), state.length ≤ contextSize →
    word < m.vocabulary.bound → ∃ score next, m.fullScore state word = .ok (score, next) ∧
      1 ≤ score.matched ∧ score.matched ≤ min state.length (m.store.order - 1) + 1 ∧
      score.matched ≤ m.store.order ∧ next.length ≤ m.store.order - 1

/-- Every model is safe, however it was made. -/
theorem safe (m : Model) : m.Safe where
  lookups := m.store.checked
  walks state word hword w hw := hw.inRange (toNat_lt_of_lt_bound hword)
  scores state word hfits hword := by
    obtain ⟨hpos, hcontext, horder⟩ := Climb.matched_score m.store (m.context state) word
    have hlen := m.length_context_le_min state
    exact ⟨m.scored state word, m.next state word, fullScore_eq hfits hword, hpos,
      Nat.le_trans hcontext (Nat.succ_le_succ hlen), horder, m.length_next_le state word⟩

/-- **No accepted bytes can make scoring go wrong.** Bytes are refused for what is wrong with them,
or they are a model that is safe to use: its look-ups read nothing outside of their arrays and do
not overflow, the counters of its walks stay in their ranges, and for any state that fits, whatever
it holds, and any word of the vocabulary there is a score, of a match of one word up to as many as
the state and the order allow, and a state that fits again. -/
theorem ofBytes_safe (bs : Bytes) :
    (∀ e, ofBytes bs = .error e → Refusal bs e) ∧ ∀ m, ofBytes bs = .ok m → m.Safe :=
  ⟨fun _ => refusal_of_ofBytes, fun m _ => m.safe⟩

/-- A model with a misplaced key and a key that is there twice, loaded with more bytes behind it,
and a full state of words that it has no weights for. -/
theorem ofBytes_safe_misplaced :
    let state : State := ⟨Vector.replicate 5 0xffffffff, Vector.replicate 5 ⟨0x7fc00000⟩, 5⟩
    ofBytes (misplacedModel.toBytes ++ [1, 2]) = .ok misplacedModel ∧
      ofBytes [65, 76] = .error (.model .imageTooShort) ∧ Refusal [65, 76] (.model .imageTooShort) ∧
      ∃ score next, misplacedModel.fullScore state 3 = .ok (score, next) ∧
        1 ≤ score.matched ∧ score.matched ≤ 3 ∧ next.length ≤ 2 := by
  intro state
  have hload : ofBytes (misplacedModel.toBytes ++ [1, 2]) = .ok misplacedModel :=
    ofBytes_eq_ok_iff.2 (List.prefix_append _ _)
  have hshort : ofBytes [65, 76] = .error (.model .imageTooShort) := rfl
  have hsafe := (ofBytes_safe _).2 _ hload
  obtain ⟨score, next, hscore, hpos, hmin, -, hnext⟩ :=
    hsafe.scores state 3 (Nat.le_refl _) (by decide)
  exact ⟨hload, hshort, (ofBytes_safe _).1 _ hshort, score, next, hscore, hpos, hmin, hnext⟩

end Model

end Ngram
