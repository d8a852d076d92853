import Mathlib
import Ngram.Model.Builder

/-!
# Sign bits and negative zero

The sign of a stored probability is a flag, and `-0.0` in place of a backoff is another one. Setting
and clearing the sign bit can be told apart and undone; adding `-0.0` to a sum changes nothing.

> `isNegative_setSign`, `setSign_clearSign`: a flag in the sign can be read, and taken out again.
> `hasExtension_markBackoff`: the flag in a backoff.
> `ofValue_add_negZero`: a computed number is left as it is by `-0.0`.
-/

namespace Ngram

namespace Single

theorem or_and_self (x y : UInt32) : (x ||| y) &&& y = y := by
  apply UInt32.toBitVec_inj.1
  ext i hi
  simp only [UInt32.toBitVec_and, UInt32.toBitVec_or, BitVec.getElem_and, BitVec.getElem_or]
  cases x.toBitVec[i] <;> cases y.toBitVec[i] <;> rfl

theorem and_or_complement (x y : UInt32) : x &&& y ||| ~~~y = x ||| ~~~y := by
  apply UInt32.toBitVec_inj.1
  ext i hi
  simp only [UInt32.toBitVec_and, UInt32.toBitVec_or, UInt32.toBitVec_not, BitVec.getElem_and,
    BitVec.getElem_or, BitVec.getElem_not]
  cases x.toBitVec[i] <;> cases y.toBitVec[i] <;> rfl

theorem isNegative_setSign (x : Single) : x.setSign.isNegative = true := by
  rw [isNegative, bits_setSign, or_and_self]
  rfl

theorem isNegative_clearSign (x : Single) : x.clearSign.isNegative = false := by
  rw [isNegative, bits_clearSign, UInt32.and_assoc]
  have h : (0x7fffffff : UInt32) &&& 0x80000000 = 0 := rfl
  rw [h, UInt32.and_zero]
  rfl

theorem setSign_setSign (x : Single) : x.setSign.setSign = x.setSign := by
  apply Single.ext
  rw [bits_setSign, bits_setSign, UInt32.or_assoc]
  rfl

theorem setSign_clearSign (x : Single) : x.clearSign.setSign = x.setSign :=
  Single.ext (and_or_complement x.bits 0x7fffffff)

end Single

namespace Weights

variable {prob backoff rest : Single} {flag : Bool}

theorem prob_pack : (pack prob backoff rest flag).prob = prob.setSign := by
  unfold pack Weights.prob
  cases flag with
  | true => exact prob.setSign_clearSign
  | false => exact prob.setSign_setSign

theorem independentLeft_pack : (pack prob backoff rest flag).independentLeft = flag := by
  unfold pack independentLeft
  cases flag with
  | true => simp [Single.isNegative_clearSign]
  | false => simp [Single.isNegative_setSign]

end Weights

/-- A marked backoff has an extension if it is not zero, or if it was said to have one. -/
theorem hasExtension_markBackoff (backoff : Single) (begun : Bool) :
    hasExtension (Builder.markBackoff backoff begun) = (!backoff.isZero || begun) := by
  unfold Builder.markBackoff hasExtension
  cases hzero : backoff.isZero with
  | false =>
    have hne : backoff ≠ .negZero := by
      intro h
      subst h
      cases hzero
    simpa using hne
  | true =>
    cases begun with
    | true => rfl
    | false => rfl

namespace Single

open Float.Model (Format UnpackedFloat)

/-- Adding `-0.0` to an unpacked number leaves it as it is. -/
theorem add_negative_zero (x : UnpackedFloat) :
    UnpackedFloat.add Format.binary32 x (.zero .negative) = x := by
  cases x with
  | infinity sign => rfl
  | notANumber => rfl
  | zero sign => cases sign <;> rfl
  | finite sign mantissa exponent hpos => rfl

/-- A number is read from the bits that it was computed to. -/
theorem value_ofValue (v : Float32) : (ofValue v).value = v := Float32.ofBits_toBits v

/-- A computed number is left as it is by `-0.0`. -/
theorem ofValue_add_negZero (v : Float32) : ofValue v + negZero = ofValue v := by
  have hzero : negZero.value.toModel.unpack = .zero .negative := by rfl
  have hsum : v + negZero.value = v := by
    show Float32.ofModel (Float32.Model.pack (UnpackedFloat.add Format.binary32
      v.toModel.unpack negZero.value.toModel.unpack)) = v
    rw [hzero, add_negative_zero]
    exact value_ofValue v
  show ofValue ((ofValue v).value + negZero.value) = ofValue v
  rw [value_ofValue, hsum]

end Single

end Ngram
