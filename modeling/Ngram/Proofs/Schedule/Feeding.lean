import Ngram.Proofs.Schedule.Faults

/-!
# What feeding takes off a stream

A slot is fed from a stream that others may read as well, so what one call leaves of the stream is
where the next sentence begins. A call takes one sentence and nothing behind it. If there is none,
it takes the words in front of the fault and the item that is at fault. What the slot did before is
dropped, and of the slot nothing but its words is changed.

> `feed_exhausted_iff`, `feed_ready_iff`, `feed_error_iff`: the three ways a call ends.
> `takes_iff`: calls that all come back with a sentence have taken a concatenation of sentences.
> `feed_takes_one`: all of this together.
-/

namespace Ngram

namespace Slot

variable {m : Model} {s s' : Slot} {items rest : List Item} {capacity : Nat}
  {sentences : List (List Word)}

/-- A slot that was given some words and has not begun to score them. -/
def holding (s : Slot) (words : List Word) : Slot :=
  { s with words := words.toArray, live := false }

/-- What feeding does is what `collect` does to the stream. -/
theorem feed_eq_iff {result : Except Error Feed} :
    s.feed m items = (result, s', rest) ↔ ∃ words : Array Word,
      collect m.vocabulary s.capacity #[] items = (result, words, rest) ∧
        s' = s.holding words.toList := by
  unfold feed holding
  constructor
  · intro h
    cases h
    exact ⟨_, rfl, rfl⟩
  · intro h
    obtain ⟨words, hcollect, rfl⟩ := h
    simp only [hcollect]

/-- A slot is told of the end of the stream if nothing is left of it, and only then. -/
theorem feed_exhausted_iff : s.feed m items = (.ok .exhausted, s', rest) ↔
    items = [] ∧ rest = [] ∧ s' = s.holding [] := by
  rw [feed_eq_iff]
  constructor
  · intro h
    obtain ⟨words, hcollect, rfl⟩ := h
    obtain ⟨rfl, -, rfl, rfl⟩ := collect_exhausted hcollect
    exact ⟨rfl, rfl, rfl⟩
  · intro h
    obtain ⟨rfl, rfl, rfl⟩ := h
    exact ⟨#[], rfl, rfl⟩

/-- A slot gets a sentence if the stream begins with one, and then just this sentence is gone. -/
theorem feed_ready_iff : s.feed m items = (.ok .ready, s', rest) ↔
    ∃ words, IsSentence m.vocabulary s.capacity words ∧ items = words.map .ok ++ rest ∧
      s' = s.holding words := by
  rw [feed_eq_iff]
  constructor
  · intro h
    obtain ⟨words, hcollect, rfl⟩ := h
    obtain ⟨hsentence, hitems⟩ := collect_ready_iff.1 hcollect
    exact ⟨words.toList, hsentence, hitems, rfl⟩
  · intro h
    obtain ⟨words, hsentence, rfl, rfl⟩ := h
    exact ⟨words.toArray, collect_append hsentence, rfl⟩

/-- Otherwise the words in front of the fault are gone, and the item that is at fault. -/
theorem feed_error_iff {e : Error} : s.feed m items = (.error e, s', rest) ↔
    ∃ words tail, IsBeginning m.vocabulary s.capacity words ∧
      Breaks m.vocabulary s.capacity words.length tail.head? e ∧
      items = words.map .ok ++ tail ∧ rest = tail.tail ∧ s' = s.holding words := by
  rw [feed_eq_iff]
  constructor
  · intro h
    obtain ⟨words, hcollect, rfl⟩ := h
    obtain ⟨tail, hitems, hrest, hbegins, hbreaks⟩ := collect_error_iff.1 hcollect
    exact ⟨words.toList, tail, hbegins, hbreaks, hitems, hrest, rfl⟩
  · intro h
    obtain ⟨words, tail, hbegins, hbreaks, hitems, hrest, rfl⟩ := h
    exact ⟨words.toArray, collect_error_iff.2 ⟨tail, hitems, hrest, hbegins, hbreaks⟩, rfl⟩

/-- Calls one after another that all come back with a sentence. Between them, the slots may do
anything that leaves them their capacity. -/
inductive Takes (m : Model) (capacity : Nat) :
    List Item → List (List Word) → List Item → Prop where
  | none (items : List Item) : Takes m capacity items [] items
  | next {s s' : Slot} {items between rest : List Item} {more : List (List Word)} :
      s.capacity = capacity → s.feed m items = (.ok .ready, s', between) →
      Takes m capacity between more rest →
      Takes m capacity items (s'.words.toList :: more) rest

/-- **Call by call**, what is taken is a concatenation of sentences. -/
theorem takes_iff : Takes m capacity items sentences rest ↔
    items = sentences.flatten.map .ok ++ rest ∧
      ∀ sentence ∈ sentences, IsSentence m.vocabulary capacity sentence := by
  constructor
  · intro h
    induction h with
    | none items => exact ⟨rfl, by simp⟩
    | next hcapacity hfeed _ ih =>
      obtain ⟨words, hsentence, rfl, rfl⟩ := feed_ready_iff.1 hfeed
      obtain ⟨rfl, hsentences⟩ := ih
      subst hcapacity
      refine ⟨?_, List.forall_mem_cons.2 ⟨hsentence, hsentences⟩⟩
      rw [List.flatten_cons, List.map_append, List.append_assoc]
      rfl
  · intro h
    obtain ⟨rfl, hsentences⟩ := h
    induction sentences with
    | nil => exact .none rest
    | cons words more ih =>
      rw [List.forall_mem_cons] at hsentences
      have hfeed : (idle m capacity).feed m ((words :: more).flatten.map .ok ++ rest) =
          (.ok .ready, (idle m capacity).holding words, more.flatten.map .ok ++ rest) := by
        refine feed_ready_iff.2 ⟨words, hsentences.1, ?_, rfl⟩
        rw [List.flatten_cons, List.map_append, List.append_assoc]
      exact .next rfl hfeed (ih hsentences.2)

/-- **Feeding takes one sentence.** A call on any slot is told of the end of the stream exactly if
nothing is left of it. It comes back with a sentence exactly if the stream begins with one that is
no longer than the capacity, with words of the vocabulary of which only the last is an end; then
just its words are in the slot and gone from the stream. Otherwise it fails at the first item that
is an error, a word outside the vocabulary, or one word too many, in this order, or at the end of
the stream inside of a sentence; the words in front are in the slot, and gone together with this
item. So calls that all come back with a sentence have the words of the stream in their order, cut
into sentences in the one way there is. -/
theorem feed_takes_one (m : Model) (s : Slot) (items : List Item) :
    (∀ s' rest, s.feed m items = (.ok .exhausted, s', rest) ↔
      items = [] ∧ rest = [] ∧ s' = s.holding []) ∧
    (∀ s' rest, s.feed m items = (.ok .ready, s', rest) ↔
      ∃ words, IsSentence m.vocabulary s.capacity words ∧ items = words.map .ok ++ rest ∧
        s' = s.holding words) ∧
    (∀ e s' rest, s.feed m items = (.error e, s', rest) ↔
      ∃ words tail, IsBeginning m.vocabulary s.capacity words ∧
        Breaks m.vocabulary s.capacity words.length tail.head? e ∧
        items = words.map .ok ++ tail ∧ rest = tail.tail ∧ s' = s.holding words) ∧
    ∀ capacity sentences rest, Takes m capacity items sentences rest →
      items = sentences.flatten.map .ok ++ rest ∧
      (∀ sentence ∈ sentences, IsSentence m.vocabulary capacity sentence) ∧
      ∀ other : List (List Word), (∀ words ∈ other, EndsOnce m.vocabulary.endSentence words) →
        other.flatten = sentences.flatten → other = sentences := by
  refine ⟨fun _ _ => feed_exhausted_iff, fun _ _ => feed_ready_iff, fun _ _ _ => feed_error_iff, ?_⟩
  intro capacity sentences rest htakes
  obtain ⟨hitems, hsentences⟩ := takes_iff.1 htakes
  exact ⟨hitems, hsentences, fun other hother => Vocabulary.sentences_unique hsentences hother⟩

open Ngram.Ring in
/-- A slot for two words, in the middle of a longer sentence: it is fed a sentence for which there
is just enough room, then a lone end, and then two words with a third one behind them for which
there is no room and which is outside the vocabulary, as is found first. -/
theorem feed_takes_one_full :
    let busy : Slot := { idle flatModel 2 with words := #[0, 1, 2], position := 1, live := true }
    ∃ first second third,
      busy.feed flatModel ([0, 2, 2, 0, 1, 9, 2].map .ok) =
        (.ok .ready, first, [2, 0, 1, 9, 2].map .ok) ∧ first.words = #[0, 2] ∧
      first.feed flatModel ([2, 0, 1, 9, 2].map .ok) =
        (.ok .ready, second, [0, 1, 9, 2].map .ok) ∧ second.words = #[2] ∧
      second.feed flatModel ([0, 1, 9, 2].map .ok) =
        (.error (.input (.wordOutside 9 3)), third, [2].map .ok) ∧ third.words = #[0, 1] ∧
      Takes flatModel 2 ([0, 2, 2, 0, 1, 9, 2].map .ok) [[0, 2], [2]] ([0, 1, 9, 2].map .ok) ∧
      [0, 2, 2, 0, 1, 9, 2].map (Except.ok (ε := Error)) =
        ([[0, 2], [2]] : List (List Word)).flatten.map .ok ++ [0, 1, 9, 2].map .ok := by
  intro busy
  have hpair : IsSentence flatModel.vocabulary 2 [0, 2] :=
    ⟨⟨[0], rfl, by decide⟩, List.forall_mem_cons.2 ⟨by decide, List.forall_mem_singleton.2
      (by decide)⟩, by decide⟩
  have hlone : IsSentence flatModel.vocabulary 2 [2] :=
    ⟨⟨[], rfl, by decide⟩, List.forall_mem_singleton.2 (by decide), by decide⟩
  have hbegins : IsBeginning flatModel.vocabulary 2 [0, 1] :=
    ⟨List.forall_mem_cons.2 ⟨by decide, List.forall_mem_singleton.2 (by decide)⟩, by decide,
      by decide⟩
  have hfirst := ((feed_takes_one flatModel busy ([0, 2, 2, 0, 1, 9, 2].map .ok)).2.1
    (busy.holding [0, 2]) ([2, 0, 1, 9, 2].map .ok)).2 ⟨[0, 2], hpair, rfl, rfl⟩
  have hsecond := ((feed_takes_one flatModel (busy.holding [0, 2]) ([2, 0, 1, 9, 2].map .ok)).2.1
    (busy.holding [2]) ([0, 1, 9, 2].map .ok)).2 ⟨[2], hlone, rfl, rfl⟩
  have hthird := ((feed_takes_one flatModel (busy.holding [2]) ([0, 1, 9, 2].map .ok)).2.2.1
    (.input (.wordOutside 9 3)) (busy.holding [0, 1]) ([2].map .ok)).2
      ⟨[0, 1], [.ok 9, .ok 2], hbegins, .outside (by decide), rfl, rfl, rfl⟩
  have htakes : Takes flatModel 2 ([0, 2, 2, 0, 1, 9, 2].map .ok) [[0, 2], [2]]
      ([0, 1, 9, 2].map .ok) := .next rfl hfirst (.next rfl hsecond (.none _))
  obtain ⟨hitems, -⟩ := (feed_takes_one flatModel busy ([0, 2, 2, 0, 1, 9, 2].map .ok)).2.2.2
    2 [[0, 2], [2]] ([0, 1, 9, 2].map .ok) htakes
  exact ⟨_, _, _, hfirst, rfl, hsecond, rfl, hthird, rfl, htakes, hitems⟩

end Slot

end Ngram
