import Ngram.Proofs.Model.Lookup

/-!
# The weights that a store holds

A store keeps the weights of the single words in an array and those of longer n-grams in a table for
each order, under their keys. `Store.weightsOf` looks an n-gram up in one place, and a climb, which
goes from order to order and extends a key by one word at a time, meets just these weights.

> `Store.weightsOf`: the weights that a store holds for an n-gram.
> `weightsOf_of_getElem?_hits`: the hits of a climb are those of the n-grams that end in the word.
> `Built.weightsOf_singleton`, `Built.weightsOf_eq`: a model that was built holds the records of
> the words and of the n-grams below the highest order.
-/

namespace Ngram

namespace Store

variable {s : Store} {g : Gram} {word : Word} {context : List Word}

/-- The weights that a store holds for an n-gram below the highest order: those of a single word
from the array, those of a longer n-gram from what the table of its order finds under its key. -/
def weightsOf (s : Store) : Gram → Option Weights
  | [] => none
  | [word] => s.unigrams[word.toNat]?
  | older :: newer :: rest =>
    s.middle[rest.length]?.bind fun t =>
      (t.find (Gram.key (older :: newer :: rest))).map MiddleEntry.weights

theorem weightsOf_cons (older : Word) (hg : g ≠ []) : s.weightsOf (older :: g) =
    s.middle[g.length - 1]?.bind fun t =>
      (t.find (Gram.key (older :: g))).map MiddleEntry.weights := by
  cases g with
  | nil => exact absurd rfl hg
  | cons newer rest => rfl

/-- What a table finds for an n-gram that is longer by one word is the hit of its weights. -/
theorem middleHit_cons (older : Word) (hg : g ≠ []) :
    s.middleHit (g.length - 1) (combine g.key older) =
      (s.weightsOf (older :: g)).map fun w => w.hit (Gram.key (older :: g)) := by
  rw [weightsOf_cons older hg, middleHit, ← Gram.key_cons older hg]
  cases s.middle[g.length - 1]? with
  | none => rfl
  | some t => simp [Function.comp_def]

theorem wordHit_eq_hit {w : Weights} (h : s.weightsOf [word] = some w) :
    s.wordHit word = w.hit (Gram.key [word]) := by
  have hget : s.unigrams[word.toNat]? = some w := h
  rw [wordHit, hget]
  rfl

/-- The hits above that of an n-gram are those of the n-grams that end in it, whatever the tables
hold. -/
theorem weightsOf_of_getElem?_ascend {level i : Nat} {hit above : Hit} (hlen : g.length = level + 1)
    (hkey : hit.extendLeft = g.key) (hget : (s.ascend level hit context).1[i]? = some above) :
    ∃ w, s.weightsOf ((context.take (i + 1)).reverse ++ g) = some w ∧
      above = w.hit (Gram.key ((context.take (i + 1)).reverse ++ g)) := by
  induction context generalizing level i g hit with
  | nil => cases hget
  | cons c cs ih =>
    have hne : g ≠ [] := List.ne_nil_of_length_eq_add_one hlen
    rw [ascend] at hget
    split at hget
    next => cases hget
    next =>
      split at hget
      next => cases hget
      next =>
        -- the table was asked for the n-gram with one more word in front
        have hfound := middleHit_cons (s := s) c hne
        rw [hlen, Nat.add_sub_cancel, ← hkey] at hfound
        rw [hfound] at hget
        cases hw : s.weightsOf (c :: g) with
        | none =>
          rw [hw] at hget
          cases hget
        | some w =>
          rw [hw] at hget
          cases i with
          | zero =>
            cases hget
            exact ⟨w, hw, rfl⟩
          | succ i =>
            have := ih (g := c :: g) (by rw [List.length_cons, hlen]) rfl hget
            simpa using this

end Store

/-- The hits of a climb are those of the n-grams that end in the word, by length. -/
theorem Climb.weightsOf_of_getElem?_hits {s : Store} {context : List Word} {word : Word} {i : Nat}
    {hit : Hit} (hword : word.toNat < s.unigrams.size)
    (hget : ((s.climb context word).base :: (s.climb context word).above)[i]? = some hit) :
    ∃ w, s.weightsOf ((context.take i).reverse ++ [word]) = some w ∧
      hit = w.hit (Gram.key ((context.take i).reverse ++ [word])) := by
  have hsingle : s.weightsOf [word] = some s.unigrams[word.toNat] :=
    Array.getElem?_eq_getElem hword
  have hbase := Store.wordHit_eq_hit hsingle
  cases i with
  | zero =>
    obtain rfl : s.wordHit word = hit := Option.some.inj hget
    exact ⟨_, hsingle, hbase⟩
  | succ i =>
    exact Store.weightsOf_of_getElem?_ascend (g := [word]) rfl (by rw [hbase]; rfl) hget

namespace Builder

variable {b : Builder} {m : Model} {g : Gram}

/-- A model that was built holds the record of each word of the vocabulary. -/
theorem Built.weightsOf_singleton (h : b.Built m) {word : Word}
    (hword : word < b.vocabulary.bound) : m.store.weightsOf [word] = some (b.record [word]) := by
  show m.store.unigrams[word.toNat]? = _
  rw [h.unigrams, getElem?_unigrams hword]

/-- It holds the record of each n-gram below the highest order. -/
theorem Built.weightsOf_eq (h : b.Built m) (hmem : g ∈ b.grams) (hone : 1 < g.length)
    (hlen : g.length < b.order) : m.store.weightsOf g = some (b.record g) := by
  cases g with
  | nil => cases hone
  | cons older rest =>
    have hpos : 0 < rest.length := Nat.lt_of_succ_lt_succ hone
    have hne : rest ≠ [] := List.length_pos_iff.1 hpos
    rw [List.length_cons] at hlen
    obtain ⟨t, ht, hholds⟩ := h.middle (rest.length - 1) (by omega)
    have hentry := find_eq_some_of_mem hholds rfl hmem (by rw [List.length_cons]; omega)
    rw [Store.weightsOf_cons older hne, ht, Option.bind_some, hentry]
    rfl

end Builder

end Ngram
