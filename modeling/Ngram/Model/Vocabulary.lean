import Ngram.Error

/-!
# Vocabularies

Word ids run from zero up to a bound. Three of them are reserved: one for words that are not known,
one for the beginning and one for the end of a sentence. The latter two differ.
-/

namespace Ngram

/-- The bound of the word ids and the reserved ids. -/
structure Vocabulary where
  bound : Word
  unknown : Word := 0
  beginSentence : Word := 1
  endSentence : Word := 2
deriving DecidableEq, Inhabited

namespace Vocabulary

/-- A reserved id has to lie below the bound. -/
def checkSpecial (v : Vocabulary) (role : Special) (id : Word) : Except Error Unit :=
  if id < v.bound then .ok () else .error (.model (.specialOutside role id v.bound))

/-- The checks are made in order, and the first that fails is reported. -/
def validate (v : Vocabulary) : Except Error Unit := do
  v.checkSpecial .unknown v.unknown
  v.checkSpecial .beginSentence v.beginSentence
  v.checkSpecial .endSentence v.endSentence
  if v.beginSentence = v.endSentence then .error (.model .specialsEqual)

/-- A word of a corpus has to lie below the bound. -/
def check (v : Vocabulary) (word : Word) : Except Error Unit :=
  if word < v.bound then .ok () else .error (.input (.wordOutside word v.bound))

/-- What a validated vocabulary promises. -/
structure Valid (v : Vocabulary) : Prop where
  unknown_lt : v.unknown < v.bound
  beginSentence_lt : v.beginSentence < v.bound
  endSentence_lt : v.endSentence < v.bound
  specials_ne : v.beginSentence ≠ v.endSentence

theorem checkSpecial_eq_ok {v : Vocabulary} {role : Special} {id : Word} :
    v.checkSpecial role id = .ok () ↔ id < v.bound := by
  unfold checkSpecial
  split <;> simp [*]

theorem validate_eq_ok {v : Vocabulary} : v.validate = .ok () ↔ v.Valid := by
  constructor
  · intro h
    simp only [validate, bind, Except.bind] at h
    split at h
    next => cases h
    next _ h₁ =>
      split at h
      next => cases h
      next _ h₂ =>
        split at h
        next => cases h
        next _ h₃ =>
          split at h
          next => cases h
          next h₄ =>
            exact ⟨checkSpecial_eq_ok.1 h₁, checkSpecial_eq_ok.1 h₂, checkSpecial_eq_ok.1 h₃, h₄⟩
  · intro h
    simp only [validate, checkSpecial_eq_ok.2 h.unknown_lt, checkSpecial_eq_ok.2 h.beginSentence_lt,
      checkSpecial_eq_ok.2 h.endSentence_lt, if_neg h.specials_ne]
    rfl

end Vocabulary

end Ngram
