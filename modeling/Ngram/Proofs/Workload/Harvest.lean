import Ngram.Proofs.Model.Faults
import Ngram.Proofs.Workload.Draws
import Ngram.Workload.Synthetic

/-!
# What is harvested

The collection of a synthetic workload holds all single words and the windows of the training
sentences, and nothing else, whatever is drawn: a window that is there already, from this sentence
or from another one, is skipped, and a sentence that is shorter than a window has none. Both ends of
a window are windows of the same sentence, so the collection is closed under dropping a word at
either end, and passes all checks.

> `mem_sentenceGrams`: the windows of a sentence are its parts.
> `gains_collect`: the collection, by what it holds.
> `closed_collect`, `wellFormed_collect`: it is closed at both ends, and passes the checks.
-/

namespace Ngram

/-- A sentence between its beginning and its end. -/
def Vocabulary.padded (v : Vocabulary) (sentence : List Word) : List Word :=
  v.beginSentence :: sentence ++ [v.endSentence]

theorem SyntheticSpec.validate_eq_ok_iff {spec : SyntheticSpec} :
    spec.validate = .ok () ↔
      (0 < spec.order ∧ spec.order ≤ maxOrder) ∧ 4 ≤ spec.vocabularySize := by
  unfold validate
  split
  next h =>
    simp only [reduceCtorEq, false_iff]
    omega
  next h =>
    split
    next hsize =>
      simp only [reduceCtorEq, false_iff]
      exact fun h => UInt32.not_le.2 hsize h.2
    next hsize =>
      simp only [true_iff]
      exact ⟨by omega, UInt32.not_lt.1 hsize⟩

namespace Builder

/-- A collection has gained the n-grams of some kind, and no others. -/
structure Gains (b : Builder) (new : Gram → Prop) (b' : Builder) : Prop where
  order : b'.order = b.order
  vocabulary : b'.vocabulary = b.vocabulary
  rejected : b'.rejected = b.rejected
  mem_iff : ∀ g, g ∈ b'.grams ↔ g ∈ b.grams ∨ new g

variable {σ α : Type} {b b' b'' : Builder} {g : Gram} {new new' : Gram → Prop}

theorem gains_none (h : ∀ g, new g → g ∈ b.grams) : b.Gains new b :=
  ⟨rfl, rfl, rfl, fun g => ⟨Or.inl, fun hg => hg.elim id (h g)⟩⟩

theorem gains_add {w : GivenWeights} (hg : 0 < g.length ∧ g.length ≤ maxOrder) :
    b.Gains (· = g) (b.add g w) := by
  obtain ⟨horder, hvocabulary, hrejected⟩ := add_keeps (b := b) (w := w) hg
  exact ⟨horder, hvocabulary, hrejected, fun g' => (mem_add hg).trans or_comm⟩

theorem Gains.trans (h : b.Gains new b') (h' : b'.Gains new' b'') :
    b.Gains (fun g => new g ∨ new' g) b'' :=
  ⟨h'.order.trans h.order, h'.vocabulary.trans h.vocabulary, h'.rejected.trans h.rejected,
    fun g => by rw [h'.mem_iff, h.mem_iff, or_assoc]⟩

theorem Gains.congr (h : b.Gains new b') (hnew : ∀ g, new g ↔ new' g) : b.Gains new' b' :=
  ⟨h.order, h.vocabulary, h.rejected, fun g => by rw [h.mem_iff, hnew]⟩

/-- What a fold gains is what its steps gain. -/
theorem gains_foldl (new : α → Gram → Prop) {step : Builder × σ → α → Builder × σ} {as : List α}
    (h : ∀ a ∈ as, ∀ (b : Builder) (s : σ), b.Gains (new a) (step (b, s) a).1) (b : Builder)
    (s : σ) :
    b.Gains (fun g => ∃ a ∈ as, new a g) (as.foldl step (b, s)).1 := by
  induction as generalizing b s with
  | nil => exact gains_none (by simp)
  | cons a as ih =>
    rw [List.forall_mem_cons] at h
    exact ((h.1 b s).trans (ih h.2 _ _)).congr (by simp)

end Builder

namespace Synthetic

variable {σ : Type} {d : Draws σ} {b : Builder} {g : Gram} {spec : SyntheticSpec} {s : σ}

/-! ## Windows -/

theorem mem_windows {length : Nat} {words : List Word} :
    g ∈ windows length words ↔ g.length = length ∧ g <:+: words := by
  simp only [windows, List.mem_map, List.mem_range]
  constructor
  · intro h
    obtain ⟨i, hi, rfl⟩ := h
    refine ⟨by rw [List.length_take, List.length_drop]; omega, ?_⟩
    exact (List.take_prefix _ _).isInfix.trans (List.drop_suffix _ _).isInfix
  · intro h
    obtain ⟨rfl, front, behind, rfl⟩ := h
    refine ⟨front.length, by simp only [List.length_append]; omega, ?_⟩
    rw [List.append_assoc, List.drop_left, List.take_left]

/-- The windows of a sentence are the parts of it, from two words up to the order. -/
theorem mem_sentenceGrams {v : Vocabulary} {order : Nat} {sentence : List Word} :
    g ∈ sentenceGrams v order sentence ↔
      2 ≤ g.length ∧ g.length ≤ order ∧ g <:+: v.padded sentence := by
  simp only [sentenceGrams, List.mem_flatMap, List.mem_range'_1, mem_windows]
  constructor
  · intro h
    obtain ⟨_, hlength, rfl, hpart⟩ := h
    exact ⟨hlength.1, by omega, hpart⟩
  · intro h
    obtain ⟨hlow, hhigh, hpart⟩ := h
    exact ⟨g.length, ⟨hlow, by omega⟩, rfl, hpart⟩

/-! ## Sentences -/

/-- A sentence of ordinary words, without its end. -/
structure Ordinary (bound : Word) (maxLength : Nat) (sentence : List Word) : Prop where
  length_le : sentence.length ≤ maxLength
  three_le : ∀ word ∈ sentence, 3 ≤ word
  lt_bound : ∀ word ∈ sentence, word < bound

/-- Whatever fraction is drawn, the word is an ordinary one. -/
theorem drawWord_range {bound : Word} (hbound : 4 ≤ bound) (s : σ) :
    3 ≤ (drawWord d bound s).1 ∧ (drawWord d bound s).1 < bound := by
  have hrange : ∀ x : Word, x ≤ bound - 4 → 3 ≤ 3 + x ∧ 3 + x < bound := by
    intro x hx
    have hsub := UInt32.toNat_sub_of_le bound 4 hbound
    have hlt := bound.toNat_lt
    rw [UInt32.le_iff_toNat_le] at hbound hx ⊢
    rw [UInt32.lt_iff_toNat_lt, UInt32.toNat_add]
    simp only [UInt32.reduceToNat] at hbound hx hsub ⊢
    omega
  refine hrange _ ?_
  show (if _ ≤ bound - 4 then _ else bound - 4) ≤ bound - 4
  split
  next hle => exact hle
  next => exact UInt32.le_refl _

theorem ordinary_drawSentence {bound : Word} (hbound : 4 ≤ bound) (maxLength : Nat) (s : σ) :
    Ordinary bound maxLength (drawSentence d bound maxLength s).1 := by
  have hwords : ∀ word ∈ (drawSentence d bound maxLength s).1, 3 ≤ word ∧ word < bound := by
    intro word hword
    exact Draws.forall_mem_times (p := fun word => 3 ≤ word ∧ word < bound) (drawWord_range hbound)
      word (Array.mem_toList_iff.1 hword)
  refine ⟨?_, fun word hword => (hwords word hword).1, fun word hword => (hwords word hword).2⟩
  show (Draws.times (d.upTo maxLength s).1.val (drawWord d bound) _).1.toList.length ≤ maxLength
  rw [Array.length_toList, Draws.size_times]
  exact Nat.lt_succ_iff.1 (d.upTo maxLength s).1.isLt

/-! ## The collection -/

theorem gains_drawUnigram (beginSentence : Word) (b : Builder) (word : Word) (s : σ) :
    b.Gains (· = [word]) (drawUnigram d beginSentence b word s).1 := by
  unfold drawUnigram
  exact Builder.gains_add ⟨Nat.one_pos, show 1 ≤ maxOrder by decide⟩

theorem gains_drawGram (hg : 0 < g.length ∧ g.length ≤ maxOrder) (b : Builder) (s : σ) :
    b.Gains (· = g) (drawGram d b g s).1 := by
  unfold drawGram
  split
  next hmem =>
    refine Builder.gains_none ?_
    rintro _ rfl
    exact hmem
  next => exact Builder.gains_add hg

theorem gains_harvest (horder : b.order ≤ maxOrder) (sentence : List Word) (s : σ) :
    b.Gains (· ∈ sentenceGrams b.vocabulary b.order sentence) (harvest d b sentence s).1 := by
  refine (Builder.gains_foldl (fun g' g => g = g') ?_ b s).congr (by simp)
  intro g hg b s
  obtain ⟨hlow, hhigh, -⟩ := mem_sentenceGrams.1 hg
  exact gains_drawGram ⟨by omega, by omega⟩ b s

/-- Training draws as many ordinary sentences as it is asked for, and the collection gains their
windows. -/
theorem gains_train (horder : b.order ≤ maxOrder) (hbound : 4 ≤ b.vocabulary.bound)
    (maxLength n : Nat) (done : Array (List Word)) (s : σ) :
    ∃ drawn : List (List Word), drawn.length = n ∧
      (train d maxLength n done b s).1 = done ++ drawn.toArray ∧
      (∀ sentence ∈ drawn, Ordinary b.vocabulary.bound maxLength sentence) ∧
      b.Gains (fun g => ∃ sentence ∈ drawn, g ∈ sentenceGrams b.vocabulary b.order sentence)
        (train d maxLength n done b s).2.1 := by
  induction n generalizing b done s with
  | zero => exact ⟨[], rfl, by simp [train], by simp, Builder.gains_none (by simp)⟩
  | succ n ih =>
    obtain ⟨sentence, s₁, hdraw⟩ :
        ∃ sentence s₁, drawSentence d b.vocabulary.bound maxLength s = (sentence, s₁) := ⟨_, _, rfl⟩
    obtain ⟨b₁, s₂, hharvest⟩ : ∃ b₁ s₂, harvest d b sentence s₁ = (b₁, s₂) := ⟨_, _, rfl⟩
    have hsentence := ordinary_drawSentence (d := d) hbound maxLength s
    have hgains := gains_harvest (d := d) horder sentence s₁
    rw [hdraw] at hsentence
    rw [hharvest] at hgains
    obtain ⟨drawn, hlength, hdone, hdrawn, hmore⟩ := ih (b := b₁) (hgains.order ▸ horder)
      (hgains.vocabulary ▸ hbound) (done.push sentence) s₂
    rw [hgains.vocabulary] at hdrawn
    rw [hgains.vocabulary, hgains.order] at hmore
    simp only [train, hdraw, hharvest]
    exact ⟨sentence :: drawn, by rw [List.length_cons, hlength], by rw [hdone]; simp,
      List.forall_mem_cons.2 ⟨hsentence, hdrawn⟩, (hgains.trans hmore).congr (by simp)⟩

/-- The vocabulary of a workload. -/
def vocabulary (spec : SyntheticSpec) : Vocabulary := { bound := spec.vocabularySize }

theorem valid_vocabulary (hbound : 4 ≤ spec.vocabularySize) : (vocabulary spec).Valid := by
  have hlt : ∀ word : Word, word < 4 → word < spec.vocabularySize :=
    fun _ hword => UInt32.lt_of_lt_of_le hword hbound
  exact ⟨hlt 0 (by decide), hlt 1 (by decide), hlt 2 (by decide), show (1 : Word) ≠ 2 by decide⟩

/-- The collection of the single words. -/
def singles (d : Draws σ) (spec : SyntheticSpec) (s : σ) : Builder × σ :=
  (List.range spec.vocabularySize.toNat).foldl
    (fun (b, s) i => drawUnigram d (vocabulary spec).beginSentence b i.toUInt32 s)
    ({ order := spec.order, vocabulary := vocabulary spec }, s)

/-- The training sentences of a workload. -/
def trained (d : Draws σ) (spec : SyntheticSpec) (s : σ) : List (List Word) :=
  (train d spec.maxLength spec.training #[] (singles d spec s).1 (singles d spec s).2).1.toList

theorem gains_singles (d : Draws σ) (spec : SyntheticSpec) (s : σ) :
    Builder.Gains { order := spec.order, vocabulary := vocabulary spec }
      (fun g => ∃ word < spec.vocabularySize, g = [word]) (singles d spec s).1 := by
  refine (Builder.gains_foldl (fun (i : Nat) g => g = [i.toUInt32]) ?_ _ s).congr ?_
  · intro i _ b s
    exact gains_drawUnigram _ b i.toUInt32 s
  · intro g
    constructor
    · intro h
      obtain ⟨i, hi, rfl⟩ := h
      rw [List.mem_range] at hi
      refine ⟨i.toUInt32, ?_, rfl⟩
      have hsize : i < UInt32.size := Nat.lt_trans hi spec.vocabularySize.toNat_lt
      rw [UInt32.lt_iff_toNat_lt, Nat.toUInt32_eq, UInt32.toNat_ofNat_of_lt' hsize]
      exact hi
    · intro h
      obtain ⟨word, hword, rfl⟩ := h
      exact ⟨word.toNat, List.mem_range.2 (UInt32.lt_iff_toNat_lt.1 hword), by simp⟩

/-- **The collection, by what it holds.** -/
theorem gains_collect (d : Draws σ) (s : σ) (hspec : spec.validate = .ok ()) :
    (trained d spec s).length = spec.training ∧
    (∀ sentence ∈ trained d spec s, Ordinary spec.vocabularySize spec.maxLength sentence) ∧
    Builder.Gains { order := spec.order, vocabulary := vocabulary spec }
      (fun g => (∃ word < spec.vocabularySize, g = [word]) ∨
        ∃ sentence ∈ trained d spec s, g ∈ sentenceGrams (vocabulary spec) spec.order sentence)
      (collect d spec s).1 := by
  obtain ⟨⟨-, horder⟩, hbound⟩ := SyntheticSpec.validate_eq_ok_iff.1 hspec
  have hsingles := gains_singles d spec s
  obtain ⟨drawn, hlength, hdone, hdrawn, hgains⟩ := gains_train (d := d) (b := (singles d spec s).1)
    (hsingles.order ▸ horder) (hsingles.vocabulary ▸ hbound) spec.maxLength spec.training #[]
    (singles d spec s).2
  have htrained : trained d spec s = drawn := by
    rw [trained, hdone]
    simp
  rw [hsingles.vocabulary] at hdrawn
  rw [hsingles.vocabulary, hsingles.order] at hgains
  rw [htrained]
  exact ⟨hlength, hdrawn, hsingles.trans hgains⟩

section Collected

variable (d : Draws σ) (s : σ) (hspec : spec.validate = .ok ())

include hspec

theorem mem_collect_iff : g ∈ (collect d spec s).1.grams ↔
    (∃ word < spec.vocabularySize, g = [word]) ∨ 2 ≤ g.length ∧ g.length ≤ spec.order ∧
      ∃ sentence ∈ trained d spec s, g <:+: (vocabulary spec).padded sentence := by
  obtain ⟨-, -, hgains⟩ := gains_collect d s hspec
  rw [hgains.mem_iff]
  simp only [mem_sentenceGrams, Std.HashMap.not_mem_empty, false_or]
  refine or_congr_right ?_
  constructor
  · intro h
    obtain ⟨sentence, hsentence, hlow, hhigh, hpart⟩ := h
    exact ⟨hlow, hhigh, sentence, hsentence, hpart⟩
  · intro h
    obtain ⟨hlow, hhigh, sentence, hsentence, hpart⟩ := h
    exact ⟨sentence, hsentence, hlow, hhigh, hpart⟩

/-- **The collection is closed at both ends.** -/
theorem closed_collect (hg : g ∈ (collect d spec s).1.grams) (hlength : 3 ≤ g.length) :
    g.tail ∈ (collect d spec s).1.grams ∧ g.dropLast ∈ (collect d spec s).1.grams := by
  rcases (mem_collect_iff d s hspec).1 hg with ⟨word, -, rfl⟩ |
    ⟨-, hhigh, sentence, hsentence, hpart⟩
  · simp at hlength
  · -- both are windows of the sentence that the n-gram is a window of
    have htail := g.length_tail
    have hinit := g.length_dropLast
    exact ⟨(mem_collect_iff d s hspec).2 (Or.inr ⟨by omega, by omega, sentence, hsentence,
        g.tail_suffix.isInfix.trans hpart⟩),
      (mem_collect_iff d s hspec).2 (Or.inr ⟨by omega, by omega, sentence, hsentence,
        g.dropLast_prefix.isInfix.trans hpart⟩)⟩

/-- **The collection passes the checks.** -/
theorem wellFormed_collect : (collect d spec s).1.WellFormed := by
  obtain ⟨⟨hpos, horder⟩, hbound⟩ := SyntheticSpec.validate_eq_ok_iff.1 hspec
  obtain ⟨-, htrained, hgains⟩ := gains_collect d s hspec
  have hvalid := valid_vocabulary hbound
  have hpadded : ∀ sentence ∈ trained d spec s, ∀ word ∈ (vocabulary spec).padded sentence,
      word < spec.vocabularySize := by
    intro sentence hsentence word hword
    simp only [Vocabulary.padded, List.cons_append, List.mem_cons, List.mem_append,
      List.not_mem_nil, or_false] at hword
    rcases hword with rfl | hword | rfl
    · exact hvalid.beginSentence_lt
    · exact (htrained sentence hsentence).lt_bound word hword
    · exact hvalid.endSentence_lt
  refine ⟨hgains.vocabulary ▸ hvalid, hgains.order ▸ hpos, hgains.order ▸ horder, hgains.rejected,
    ?_, ?_, fun g hg hlength => (closed_collect d s hspec hg hlength).1⟩
  · intro g hg
    rw [hgains.order]
    rcases (mem_collect_iff d s hspec).1 hg with ⟨word, -, rfl⟩ | ⟨-, hhigh, -⟩
    · exact hpos
    · exact hhigh
  · intro g hg word hword
    rw [hgains.vocabulary]
    rcases (mem_collect_iff d s hspec).1 hg with ⟨word', hword', rfl⟩ |
      ⟨-, -, sentence, hsentence, hpart⟩
    · rw [List.mem_singleton.1 hword]
      exact hword'
    · exact hpadded sentence hsentence word (hpart.subset hword)

end Collected

end Synthetic

end Ngram
