import Ngram.Proofs.Model.Lookup
import Ngram.Proofs.Score.Sequence

/-!
# How far a climb gets in a model that was built

Every suffix of a collected n-gram counts as stored, so the stored n-grams that end in a word and
reach back into its context have no gap: they are a chain, from the word alone up to the longest
one. A climb meets the hits of exactly this chain. Neither the flags nor the order stop it early.

> `WellFormed.lt_reach_iff`: the chain reaches as far back as any stored n-gram does.
> `climb_eq`: the hits of a climb are those of the chain, and above them the longest probability.
> `score_climb`: the match is the top of the chain, with the probability stored for it.

The keys of n-grams that are looked up but not stored must not be those of others (`Clear`).
-/

namespace Ngram

theorem Climb.getElem?_last (c : Climb) : (c.base :: c.above)[c.above.length]? = some c.last := by
  have h : (c.base :: c.above).getLast? = some c.last := by
    rw [last, List.getLast?_cons, List.getLastD_eq_getLast?]
  rwa [List.getLast?_eq_getElem?, List.length_cons, Nat.add_sub_cancel] at h

namespace Builder

variable {b : Builder} {g : Gram} {word : Word} {context : List Word}

/-- The collected n-grams above an n-gram, with more and more of a context in front. -/
def chain (b : Builder) (g : Gram) : List Word → List Gram
  | [] => []
  | c :: cs => if c :: g ∈ b.grams then (c :: g) :: b.chain (c :: g) cs else []

/-- The length of the longest n-gram that ends in a word behind a context. -/
def reach (b : Builder) (context : List Word) (word : Word) : Nat :=
  (b.chain [word] context).length + 1

/-- Above an n-gram of two words and more, all suffixes are there as well. -/
theorem WellFormed.mem_of_append (h : b.WellFormed) {front : List Word}
    (hmem : front ++ g ∈ b.grams) (hlen : 2 ≤ g.length) : g ∈ b.grams := by
  induction front with
  | nil => exact hmem
  | cons word front ih =>
    refine ih (h.suffix _ hmem ?_)
    simp only [List.cons_append, List.length_cons, List.length_append]
    omega

theorem length_chain_le (b : Builder) (g : Gram) (context : List Word) :
    (b.chain g context).length ≤ context.length := by
  induction context generalizing g with
  | nil => exact Nat.le_refl _
  | cons c cs ih =>
    rw [chain]
    split
    next => exact Nat.succ_le_succ (ih _)
    next => exact Nat.zero_le _

theorem reach_pos (b : Builder) (context : List Word) (word : Word) : 0 < b.reach context word :=
  Nat.succ_pos _

theorem reach_le (b : Builder) (context : List Word) (word : Word) :
    b.reach context word ≤ context.length + 1 :=
  Nat.succ_le_succ (b.length_chain_le _ _)

/-- Each n-gram of a chain has one more word of the context in front. -/
theorem getElem?_chain {i : Nat} (hi : i < (b.chain g context).length) :
    (b.chain g context)[i]? = some ((context.take (i + 1)).reverse ++ g) ∧
      (context.take (i + 1)).reverse ++ g ∈ b.grams := by
  induction context generalizing g i with
  | nil => exact absurd hi (Nat.not_lt_zero _)
  | cons c cs ih =>
    rw [chain] at hi ⊢
    split at hi
    next hmem =>
      rw [if_pos hmem]
      cases i with
      | zero => simpa using hmem
      | succ i =>
        have := ih (Nat.lt_of_succ_lt_succ hi)
        simpa [List.append_assoc] using this
    next => exact absurd hi (Nat.not_lt_zero _)

/-- A chain reaches as far back as any collected n-gram does. -/
theorem WellFormed.lt_length_chain (h : b.WellFormed) {i : Nat} (hg : g ≠ [])
    (hi : i < context.length) (hmem : (context.take (i + 1)).reverse ++ g ∈ b.grams) :
    i < (b.chain g context).length := by
  induction context generalizing g i with
  | nil => exact absurd hi (Nat.not_lt_zero _)
  | cons c cs ih =>
    -- the n-gram ends in the one with the nearest word in front, which is then collected too
    have hsplit : ((c :: cs).take (i + 1)).reverse ++ g = (cs.take i).reverse ++ c :: g := by simp
    rw [hsplit] at hmem
    have hfirst : c :: g ∈ b.grams := by
      refine h.mem_of_append hmem ?_
      have := List.length_pos_iff.2 hg
      rw [List.length_cons]
      omega
    rw [chain, if_pos hfirst, List.length_cons]
    cases i with
    | zero => exact Nat.succ_pos _
    | succ i =>
      exact Nat.succ_lt_succ (ih (List.cons_ne_nil _ _) (Nat.lt_of_succ_lt_succ hi) hmem)

/-- The stored n-grams that end in a word behind a context are those up to its reach. -/
theorem WellFormed.lt_reach_iff (h : b.WellFormed) {i : Nat} :
    i < b.reach context word ↔
      i ≤ context.length ∧ b.Stored ((context.take i).reverse ++ [word]) := by
  rw [reach, Nat.lt_succ_iff]
  cases i with
  | zero => simp [Stored]
  | succ i =>
    constructor
    · intro hi
      exact ⟨Nat.le_trans hi (b.length_chain_le _ _), Or.inr (getElem?_chain hi).2⟩
    · intro h
      obtain ⟨hi, hstored⟩ := h
      refine h.lt_length_chain (List.cons_ne_nil _ _) hi (hstored.resolve_left ?_)
      simp only [List.length_append, List.length_reverse, List.length_take, List.length_singleton]
      omega

namespace Built

variable {m : Model}

/-- **A climb meets the chain.** From the hit of an n-gram on, a climb meets the hits of its chain,
and at the highest order the probability of the n-gram there. -/
theorem ascend_eq (h : b.Built m) {level : Nat} (hlen : g.length = level + 1)
    (hroom : level + context.length < b.order)
    (hclear : ∀ i, 1 ≤ i → i ≤ context.length → b.Clear ((context.take i).reverse ++ g)) :
    m.store.ascend level (b.hitOf g) context =
      (((b.chain g context).take (b.order - 2 - level)).map b.hitOf,
        (b.chain g context)[b.order - 2 - level]?.map fun g => (b.given g).prob) := by
  induction context generalizing level g with
  | nil => simp [Store.ascend, chain]
  | cons c cs ih =>
    rw [List.length_cons] at hroom hclear
    have hne : g ≠ [] := by
      intro h
      subst h
      cases hlen
    have hfirst : b.Clear (c :: g) := by simpa using hclear 1 (Nat.le_refl _) (by omega)
    have hlonger : (c :: g).length = level + 2 := by rw [List.length_cons, hlen]
    have hone : 1 < (c :: g).length := by omega
    rw [Store.ascend, h.order, chain]
    split
    next hind =>
      -- an independent n-gram is the suffix of no other
      have hnone : c :: g ∉ b.grams := fun hmem =>
        independentLeft_record_iff.1 hind (c :: g) hmem hone rfl
      simp [hnone]
    next =>
      have hkey : combine (b.hitOf g).extendLeft c = Gram.key (c :: g) := (Gram.key_cons c hne).symm
      split
      next htop =>
        -- the highest order: what is found there is a probability, and there is nothing above it
        have hzero : b.order - 2 - level = 0 := by omega
        rw [hzero]
        show ([], m.store.longestProb g.key c) = _
        split
        next hmem => rw [h.longestProb_of_mem hne hmem (hlonger.trans htop)]; rfl
        next hmem => rw [h.longestProb_of_not_mem hne hfirst hmem (hlonger.trans htop)]; rfl
      next htop =>
        -- below it, the table holds the next n-gram exactly if that was collected
        have hbelow : level + 2 < b.order := by omega
        rw [hkey]
        split
        next hmiss =>
          have hnone : c :: g ∉ b.grams := by
            intro hmem
            rw [h.middleHit_of_mem hmem hlonger hbelow] at hmiss
            cases hmiss
          simp [hnone]
        next hit hhit =>
          have hmem : c :: g ∈ b.grams := by
            by_contra hnone
            rw [h.middleHit_of_not_mem hfirst hnone hlonger hbelow] at hhit
            cases hhit
          rw [h.middleHit_of_mem hmem hlonger hbelow] at hhit
          obtain rfl := Option.some.inj hhit
          have hrest : ∀ i, 1 ≤ i → i ≤ cs.length → b.Clear ((cs.take i).reverse ++ c :: g) :=
            fun i hpos hi => by simpa using hclear (i + 1) (by omega) (by omega)
          have hlevels : b.order - 2 - level = b.order - 2 - (level + 1) + 1 := by omega
          rw [if_pos hmem, ih hlonger (by omega) hrest, hlevels]
          simp

section Climb

variable (h : b.Built m) (hword : word < b.vocabulary.bound) (hroom : context.length < b.order)
  (hclear : ∀ i, 1 ≤ i → i ≤ context.length → b.Clear ((context.take i).reverse ++ [word]))

include h hword hroom hclear

/-- The hits of a climb are those of the chain above a word. -/
theorem climb_eq : m.store.climb context word =
    { base := b.hitOf [word]
      above := ((b.chain [word] context).take (b.order - 2)).map b.hitOf
      longest := (b.chain [word] context)[b.order - 2]?.map fun g => (b.given g).prob } := by
  have hascend : m.store.ascend 0 (b.hitOf [word]) context = _ :=
    h.ascend_eq rfl (by omega) hclear
  unfold Store.climb Climb.complete
  rw [h.wordHit_eq hword]
  change ({ base := b.hitOf [word]
            above := [] ++ (m.store.ascend 0 (b.hitOf [word]) context).1
            longest := (m.store.ascend 0 (b.hitOf [word]) context).2 } : Climb) = _
  rw [hascend]
  rfl

/-- The hits of a climb, by length. -/
theorem getElem?_hits {i : Nat} (hi : i < b.reach context word) (horder : i ≤ b.order - 2) :
    ((m.store.climb context word).base :: (m.store.climb context word).above)[i]? =
      some (b.hitOf ((context.take i).reverse ++ [word])) := by
  rw [h.climb_eq hword hroom hclear]
  cases i with
  | zero => rfl
  | succ i =>
    rw [List.getElem?_cons_succ, List.getElem?_map, List.getElem?_take_of_lt (by omega),
      (getElem?_chain (Nat.lt_of_succ_lt_succ hi)).1]
    rfl

theorem length_above : (m.store.climb context word).above.length =
    min (b.reach context word - 1) (b.order - 2) := by
  rw [h.climb_eq hword hroom hclear]
  simp [reach, Nat.min_comm]

/-- **The match of a climb is the longest n-gram of the chain.** -/
theorem score_climb (n : Nat) :
    ((m.store.climb context word).score b.order n).matched = b.reach context word ∧
      ((m.store.climb context word).score b.order n).prob =
        b.storedProb ((context.take (b.reach context word - 1)).reverse ++ [word]) := by
  have hle := b.reach_le context word
  have hpos := b.reach_pos context word
  have habove := h.length_above hword hroom hclear
  have hhits := h.getElem?_hits hword hroom hclear (i := b.reach context word - 1) (by omega)
  have hlength : ((context.take (b.reach context word - 1)).reverse ++ [word]).length =
      b.reach context word := by
    simp
    omega
  have hlongest : (m.store.climb context word).longest =
      (b.chain [word] context)[b.order - 2]?.map fun g => (b.given g).prob := by
    rw [h.climb_eq hword hroom hclear]
  rw [storedProb, hlength]
  by_cases htop : 1 < b.order ∧ b.reach context word = b.order
  · -- the chain goes up to the highest order, where the climb ends with a probability
    have hlt : b.order - 2 < (b.chain [word] context).length := by
      unfold reach at htop
      omega
    obtain ⟨hget, -⟩ := getElem?_chain hlt
    have hsame : b.order - 2 + 1 = b.reach context word - 1 := by omega
    rw [hget, hsame] at hlongest
    rw [if_pos htop, Climb.score, hlongest]
    exact ⟨htop.2.symm, rfl⟩
  · -- it ends below, and its last n-gram is that of the last hit
    have hnone : (b.chain [word] context)[b.order - 2]? = none := by
      rw [List.getElem?_eq_none_iff]
      unfold reach at htop hle
      omega
    have hlast := (m.store.climb context word).getElem?_last
    have hsame : (m.store.climb context word).above.length = b.reach context word - 1 := by omega
    rw [hsame, hhits (by omega)] at hlast
    rw [hnone] at hlongest
    rw [if_neg htop, Climb.score, hlongest, ← Option.some.inj hlast, hsame]
    exact ⟨Nat.sub_add_cancel hpos, rfl⟩

end Climb

end Built

end Builder

end Ngram
