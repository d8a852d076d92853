import Ngram.Proofs.Model.Content
import Ngram.Proofs.Score.Sequence

/-!
# Models that answer alike

A climb asks a store for the hit of a word, for the hits of longer n-grams, and for a probability at
the highest order. Two models whose stores answer these questions alike give the same scores and
leave the same states, whatever buckets their tables have. Models of collections with the same
content answer alike, since their tables hold the same entries.

> `Store.Alike.climb_eq`, `fullScore_eq_of_alike`: stores that answer alike score alike.
> `Built.alike`: two models that hold the same content answer alike.
> `build_neutral`: the settings of the tables, the order of the calls and the order in which the
> collection is visited leave no trace.
-/

namespace Ngram

/-- Two stores answer the questions of a climb alike. -/
structure Store.Alike (s s' : Store) : Prop where
  order : s.order = s'.order
  wordHit : ∀ word, s.wordHit word = s'.wordHit word
  middleHit : ∀ level node, s.middleHit level node = s'.middleHit level node
  /-- The highest order is asked by n-grams of two words and more. -/
  longestProb : 1 < s.order → ∀ node word, s.longestProb node word = s'.longestProb node word

namespace Store.Alike

variable {s s' : Store}

theorem ascend_eq (h : s.Alike s') (level : Nat) (hit : Hit) (context : List Word) :
    s.ascend level hit context = s'.ascend level hit context := by
  induction context generalizing level hit with
  | nil => rfl
  | cons older rest ih =>
    rw [ascend, ascend, ← h.order, ← h.middleHit]
    by_cases htop : level + 2 = s.order
    · rw [if_pos htop, if_pos htop, h.longestProb (by omega)]
    · rw [if_neg htop, if_neg htop]
      cases s.middleHit level (combine hit.extendLeft older) with
      | none => rfl
      | some next => simp only [ih]

theorem climb_eq (h : s.Alike s') (context : List Word) (word : Word) :
    s.climb context word = s'.climb context word := by
  rw [climb, climb, Climb.complete, Climb.complete, h.wordHit]
  simp only [h.ascend_eq]

end Store.Alike

/-- Stores that answer alike score alike, and leave the same states. -/
theorem Model.fullScore_eq_of_alike {m m' : Model} (hstore : m.store.Alike m'.store)
    (hvocabulary : m.vocabulary = m'.vocabulary) {state : State} {word : Word}
    (hfits : state.length ≤ contextSize) (hword : word < m.vocabulary.bound) :
    ∃ result, m.fullScore state word = .ok result ∧ m'.fullScore state word = .ok result := by
  have hcontext : m.context state = m'.context state := by
    rw [context, context, hstore.order]
  have hclimb : m.climb state word = m'.climb state word := by
    rw [climb, climb, hcontext, hstore.climb_eq]
  have hfound : m.found state word = m'.found state word := by
    rw [found, found, hclimb, hcontext, hstore.order]
  have hscored : m.scored state word = m'.scored state word := by
    rw [scored, scored, hfound]
  have hnext : m.next state word = m'.next state word := by
    rw [next, next, hclimb, hcontext, hstore.order]
  refine ⟨_, fullScore_eq hfits hword, ?_⟩
  rw [fullScore_eq hfits (hvocabulary ▸ hword), hscored, hnext]

namespace Builder

variable {b : Builder} {m m' : Model}

/-- **Two models that hold the same content answer alike**, however their tables are filled. -/
theorem Built.alike (h : b.Built m) (h' : b.Built m') : m.store.Alike m'.store where
  order := h.order.trans h'.order.symm
  wordHit := by
    intro word
    rw [Store.wordHit, Store.wordHit, h.unigrams, h'.unigrams]
  middleHit := by
    intro level node
    by_cases hlevel : level + 2 < b.order
    · obtain ⟨t, ht, hholds⟩ := h.middle level hlevel
      obtain ⟨t', ht', hholds'⟩ := h'.middle level hlevel
      rw [Store.middleHit, Store.middleHit, ht, ht', Option.bind_some, Option.bind_some,
        hholds.find_eq_find hholds']
    · -- from the highest order on there are no such tables
      have hnone {m : Model} (h : b.Built m) : m.store.middle[level]? = none := by
        rw [Array.getElem?_eq_none_iff, m.store.middle_size, h.order]
        omega
      rw [Store.middleHit, Store.middleHit, hnone h, hnone h']
  longestProb := by
    intro hone node word
    rw [h.order] at hone
    rw [Store.longestProb, Store.longestProb, (h.longest hone).find_eq_find (h'.longest hone)]

/-- **Table settings and orders leave no trace.** Two sequences of calls that leave the same last
weights, visited in any orders, are accepted together with any two valid settings that leave room
for the tables, and the two models give each word the same score and the same state behind it. -/
theorem build_neutral {order : Nat} {vocabulary : Vocabulary}
    {calls calls' : List (Gram × GivenWeights)} {settings settings' : TableSettings}
    (hlen : ∀ e ∈ calls, 1 ≤ e.1.length ∧ e.1.length ≤ 6)
    (hlen' : ∀ e ∈ calls', 1 ≤ e.1.length ∧ e.1.length ≤ 6)
    (hlast : ∀ g, calls.reverse.lookup g = calls'.reverse.lookup g)
    (hvalid : settings.validate = .ok ()) (hvalid' : settings'.validate = .ok ())
    (hroom : (listed order vocabulary calls).Room settings)
    (hroom' : (listed order vocabulary calls').Room settings')
    (o : (listed order vocabulary calls).Visit) (o' : (listed order vocabulary calls').Visit) :
    ((∃ m, o.build settings = .ok m) ↔ ∃ m', o'.build settings' = .ok m') ∧
      ∀ m m', o.build settings = .ok m → o'.build settings' = .ok m' →
        ∀ (state : State) (word : Word), state.length ≤ order - 1 → word < vocabulary.bound →
          ∃ result, m.fullScore state word = .ok result ∧
            m'.fullScore state word = .ok result := by
  have hsame : (listed order vocabulary calls).Same (listed order vocabulary calls') :=
    same_listed hlen hlen' hlast
  obtain ⟨horder, hvocabulary, -⟩ := listed_keeps order vocabulary hlen
  refine ⟨?_, ?_⟩
  · rw [o.build_eq_ok_iff, o'.build_eq_ok_iff]
    exact ⟨hsame.accepted hvalid' hroom', hsame.symm.accepted hvalid hroom⟩
  · intro m m' hm hm' state word hstate hword
    obtain ⟨haccepted, hbuilt⟩ := o.built_of_build hm
    obtain ⟨-, hbuilt'⟩ := o'.built_of_build hm'
    have hle : order ≤ maxOrder := by
      rw [← horder]
      exact haccepted.wellFormed.order_le
    refine Model.fullScore_eq_of_alike (hbuilt.alike (hsame.symm.built hbuilt')) ?_ ?_ ?_
    · exact (hbuilt.vocabulary.trans hsame.vocabulary).trans hbuilt'.vocabulary.symm
    · show state.length ≤ maxOrder - 1
      omega
    · rw [hbuilt.vocabulary, hvocabulary]
      exact hword

/-- The n-grams of a collection. -/
def orderedCalls : List (Gram × GivenWeights) :=
  [([3, 4], ⟨⟨0xbf800000⟩, .zero, ⟨0xbf800000⟩⟩), ([4, 5], ⟨⟨0xbf000000⟩, .zero, ⟨0xbf000000⟩⟩),
    ([3, 4, 5], ⟨⟨0xbe800000⟩, .zero, ⟨0xbe800000⟩⟩)]

/-- The same from the last on, behind other weights that are given to one of them first. -/
def repeatedCalls : List (Gram × GivenWeights) :=
  ([4, 5], ⟨⟨0xc0000000⟩, .zero, ⟨0xc0000000⟩⟩) :: orderedCalls.reverse

/-- With few buckets and with many, visited in opposite orders, the collection is accepted, its
tables are not the same, and the models score the last word of its longest n-gram alike. -/
theorem build_neutral_repeated :
    ∃ (o : (listed 3 { bound := 6 } orderedCalls).Visit)
      (o' : (listed 3 { bound := 6 } repeatedCalls).Visit) (m m' : Model),
      o.build {} = .ok m ∧ o'.build { multiplier := ⟨0x40400000⟩, mode := .mask } = .ok m' ∧
      m.store.longest.slots.size ≠ m'.store.longest.slots.size ∧
      let state : State := { State.empty with words := #v[4, 3, 0, 0, 0], length := 2 }
      ∃ result, m.fullScore state 5 = .ok result ∧ m'.fullScore state 5 = .ok result := by
  have hlen : ∀ e ∈ orderedCalls, 1 ≤ e.1.length ∧ e.1.length ≤ 6 := by decide
  have hlen' : ∀ e ∈ repeatedCalls, 1 ≤ e.1.length ∧ e.1.length ≤ 6 := by decide
  have hlast : ∀ g, orderedCalls.reverse.lookup g = repeatedCalls.reverse.lookup g := by
    intro g
    by_cases hlisted : g ∈ orderedCalls.map Prod.fst
    · revert g
      decide
    · have hnot : g ≠ [3, 4] ∧ g ≠ [4, 5] ∧ g ≠ [3, 4, 5] := by simpa [orderedCalls] using hlisted
      simp [orderedCalls, repeatedCalls, List.lookup, beq_eq_false_iff_ne.2 hnot.1,
        beq_eq_false_iff_ne.2 hnot.2.1, beq_eq_false_iff_ne.2 hnot.2.2]
  have hsame : (listed 3 { bound := 6 } orderedCalls).Same
      (listed 3 { bound := 6 } repeatedCalls) := same_listed hlen hlen' hlast
  have hfew : (listed 3 { bound := 6 } orderedCalls).Accepted {} :=
    accepted_listed (by decide +kernel)
  have hmany : (listed 3 { bound := 6 } orderedCalls).Accepted
      { multiplier := ⟨0x40400000⟩, mode := .mask } :=
    accepted_listed (by decide +kernel)
  let o := Visit.own (listed 3 { bound := 6 } orderedCalls)
  let o' : (listed 3 { bound := 6 } repeatedCalls).Visit :=
    ⟨(listed 3 { bound := 6 } repeatedCalls).grams.toList.reverse, List.reverse_perm _⟩
  obtain ⟨m, hm⟩ := o.build_eq_ok_iff.2 hfew
  obtain ⟨haccepted, halike⟩ := build_neutral hlen hlen' hlast hfew.valid hmany.valid hfew.room
    (hsame.room hmany.room) o o'
  obtain ⟨m', hm'⟩ := haccepted.1 ⟨m, hm⟩
  refine ⟨o, o', m, m', hm, hm', ?_, halike m m' hm hm' _ 5 (Nat.le_refl 2) (by decide)⟩
  have hcount : ((listed 3 { bound := 6 } orderedCalls).ofLength 3).length = 1 :=
    length_ofLength_listed hlen (by decide) 3
  have hcount' : ((listed 3 { bound := 6 } repeatedCalls).ofLength 3).length = 1 :=
    (hsame.perm_ofLength 3).length_eq.symm.trans hcount
  obtain ⟨horder, -⟩ := listed_keeps 3 { bound := 6 } hlen
  obtain ⟨horder', -⟩ := listed_keeps 3 { bound := 6 } hlen'
  rw [o.size_longest hm (by rw [horder]; decide), o'.size_longest hm' (by rw [horder']; decide),
    horder, horder', hcount, hcount']
  decide +kernel

end Builder

end Ngram
