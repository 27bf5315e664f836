import SymbolicRegression.Polynomial.Formula
import SymbolicRegression.Proofs.Doubles.Shortest
import SymbolicRegression.Proofs.Printing.Legible

/-!
# Labels are words

The label of a coefficient is the decimal form of its magnitude, rounded. That it has no sign in
front is a fact about floating-point arithmetic: the sign bit of a magnitude is clear, and rounding
to a number of decimals multiplies, rounds and divides by numbers whose sign bits are clear. So a
label consists of digits and a point, or is the name of a number that is not finite. The operations
on doubles are followed on their unpacked form, where the sign is a component of its own.
-/

namespace SymbolicRegression

open Float.Model (Format)
open Float.Model.UnpackedFloat (Sign)

/-! ## Clear sign bits -/

/-- The sign bit is clear. -/
def Unsigned (x : Float) : Prop :=
  x.toBits.toNat < 2 ^ 63

instance (x : Float) : Decidable (Unsigned x) :=
  inferInstanceAs (Decidable (_ < _))

/-- The sign is positive, or there is none. -/
def IsPositive : Float.Model.UnpackedFloat → Prop
  | .notANumber => True
  | .infinity s => s = .positive
  | .zero s => s = .positive
  | .finite s _ _ _ => s = .positive

theorem toNat_packComponents_lt (e : BitVec 11) (m : BitVec 52) :
    (Float.Model.UnpackedFloat.packComponents Format.binary64 .positive e m).toNat < 2 ^ 63 := by
  have he := e.isLt
  have hm := m.isLt
  have hsign : (Sign.toBitVec .positive).toNat = 0 := rfl
  rw [Binary.toNat_packComponents, hsign]
  omega

theorem unsigned_pack {u : Float.Model.UnpackedFloat} (h : IsPositive u) :
    Unsigned (.ofModel (.pack u)) := by
  show (Float.Model.UnpackedFloat.pack Format.binary64 u).toNat < 2 ^ 63
  cases u with
  | infinity s => cases h; exact toNat_packComponents_lt _ _
  | notANumber => exact toNat_packComponents_lt _ _
  | zero s => cases h; exact toNat_packComponents_lt _ _
  | finite s m e hm =>
      cases h
      rw [Float.Model.UnpackedFloat.pack]
      dsimp only
      split
      · exact toNat_packComponents_lt _ _
      · split
        · exact toNat_packComponents_lt _ _
        · exact toNat_packComponents_lt _ _

theorem isPositive_unpack {x : Float} (h : Unsigned x) : IsPositive x.toModel.unpack := by
  have hsign : @Float.Model.UnpackedFloat.unpackSign Format.binary64
      x.toModel.toBits.toBitVec = 0#1 := by
    apply BitVec.eq_of_toNat_eq
    rw [Bits.toNat_unpackSign]
    exact Nat.div_eq_of_lt h
  rw [Float.Model.unpack, Float.Model.UnpackedFloat.unpack]
  simp only [hsign]
  split
  · split
    · rfl
    · trivial
  · split
    · split
      · rfl
      · rfl
    · rfl

/-! ### Operations -/

theorem isPositive_roundWithAccuracy (m : Nat) (e : Int)
    (accuracy : Float.Model.UnpackedFloat.Accuracy) :
    IsPositive (.roundWithAccuracy Format.binary64 .positive m e accuracy) := by
  rw [Float.Model.UnpackedFloat.roundWithAccuracy]
  dsimp only
  split
  · rfl
  · rfl

theorem isPositive_mul {u v : Float.Model.UnpackedFloat} (hu : IsPositive u)
    (hv : IsPositive v) : IsPositive (.mul Format.binary64 u v) := by
  cases u with
  | finite s m e hm =>
      cases hu
      cases v with
      | finite s' m' e' hm' =>
          cases hv
          exact isPositive_roundWithAccuracy _ _ _
      | _ => cases hv; trivial
  | _ => cases hu; cases v <;> cases hv <;> trivial

theorem isPositive_div {u v : Float.Model.UnpackedFloat} (hu : IsPositive u)
    (hv : IsPositive v) : IsPositive (.div Format.binary64 u v) := by
  cases u with
  | finite s m e hm =>
      cases hu
      cases v with
      | finite s' m' e' hm' =>
          cases hv
          exact isPositive_roundWithAccuracy _ _ _
      | _ => cases hv; trivial
  | _ => cases hu; cases v <;> cases hv <;> trivial

theorem Unsigned.mul {x y : Float} (hx : Unsigned x) (hy : Unsigned y) : Unsigned (x * y) :=
  unsigned_pack (isPositive_mul (isPositive_unpack hx) (isPositive_unpack hy))

theorem Unsigned.div {x y : Float} (hx : Unsigned x) (hy : Unsigned y) : Unsigned (x / y) :=
  unsigned_pack (isPositive_div (isPositive_unpack hx) (isPositive_unpack hy))

theorem unsigned_abs (x : Float) : Unsigned x.abs := by
  apply unsigned_pack
  cases x.toModel.unpack with
  | infinity s => rfl
  | notANumber => trivial
  | zero s => rfl
  | finite s m e hm => rfl

theorem isPositive_ofScientific (m : Nat) (e : Int) :
    IsPositive (.ofScientific Format.binary64 m e) := by
  rw [Float.Model.UnpackedFloat.ofScientific]
  split
  · rfl
  · split
    · rfl
    · split
      · rfl
      · split
        · exact isPositive_mul rfl rfl
        · exact isPositive_div rfl rfl

theorem isPositive_normalize (n : Nat) :
    IsPositive (.normalize Format.binary64 n 0 .positive) := by
  rw [Float.Model.UnpackedFloat.normalize]
  split
  · next h =>
      rw [Int.compare_eq_lt] at h
      omega
  · rfl
  · rw [Float.Model.UnpackedFloat.round]
    exact isPositive_roundWithAccuracy _ _ _

theorem unsigned_ofNat (n : Nat) : Unsigned (Float.ofNat n) := by
  show Unsigned (Float.ofScientific n false 0)
  rw [Float.ofScientific]
  split
  · -- small numbers are multiplied by the power of ten, which is one
    have hpower : Unsigned (Float.ofBits 0x3FF0000000000000) := by decide
    exact Unsigned.mul (unsigned_pack (isPositive_normalize _)) hpower
  · exact unsigned_pack (isPositive_ofScientific _ _)

/-! ### Comparisons -/

theorem Unsigned.not_lt_zero {x : Float} (hx : Unsigned x) : ¬x < 0 := by
  have hpositive := isPositive_unpack hx
  have hzero : (0 : Float).toModel.unpack = .zero .positive := rfl
  intro hlt
  have hlt' : Float.Model.UnpackedFloat.lt x.toModel.unpack (0 : Float).toModel.unpack = true :=
    of_decide_eq_true hlt
  rw [hzero] at hlt'
  cases hu : x.toModel.unpack with
  | infinity s => rw [hu] at hpositive hlt'; cases hpositive; cases hlt'
  | notANumber => rw [hu] at hlt'; cases hlt'
  | zero s => rw [hu] at hlt'; cases hlt'
  | finite s m e hm => rw [hu] at hpositive hlt'; cases hpositive; cases hlt'

/-! ## Rounding and writing -/

namespace Number

theorem negative_eq_false {x : Float} (hx : Unsigned x) {b : Binary}
    (h : Binary.ofFloat? x = some b) : b.negative = false := by
  have hbits : b.bits < 2 ^ 63 := (Binary.ofFloat?_eq_some h).2.2 ▸ hx
  rw [Binary.bits] at hbits
  cases hs : b.negative with
  | false => rfl
  | true =>
      rw [hs, if_pos rfl] at hbits
      omega

theorem unsigned_roundHalfAway {x : Float} (hx : Unsigned x) : Unsigned (roundHalfAway x) := by
  rw [roundHalfAway]
  split
  · exact hx
  · next b hb =>
      split
      · exact hx
      · rw [Binary.withWhole, negative_eq_false hx hb]
        exact unsigned_ofNat _

theorem unsigned_roundTo {x : Float} (hx : Unsigned x) : Unsigned (roundTo x printedDecimals) := by
  have hscale : Unsigned (Scalar.powInt (10 : Float) printedDecimals) := by decide +kernel
  rw [roundTo]
  split
  · exact hx
  · dsimp only
    split
    · exact hx
    · split
      · decide
      · exact (unsigned_roundHalfAway (hx.mul hscale)).div hscale

theorem isWord_of_isNumeral {s : String} (h : IsNumeral s.toList) : IsWord s := by
  rw [IsWord]
  generalize s.toList = cs at h
  cases h with
  | whole hne hws => exact ⟨hne, fun c hc => isWordChar_of_isDigit (hws c hc)⟩
  | point hne hws hfs =>
      refine ⟨List.append_ne_nil_of_left_ne_nil hne _, ?_⟩
      rw [List.forall_mem_append, List.forall_mem_cons]
      exact ⟨fun c hc => isWordChar_of_isDigit (hws c hc), by decide,
        fun c hc => isWordChar_of_isDigit (hfs c hc)⟩

theorem isWord_plain {x : Float} (hx : Unsigned x) : IsWord (plain x) := by
  rw [plain, written]
  split
  · next b hb =>
      rw [negative_eq_false hx hb, if_neg Bool.false_ne_true, String.empty_append]
      exact isWord_of_isNumeral (Decimal.isNumeral_plain _)
  · rw [if_neg hx.not_lt_zero]
    split
    · exact isWord_of_all (by decide) (by decide)
    · exact isWord_of_all (by decide) (by decide)

theorem isWord_label (c : Float) : IsWord (Coefficient.label (Scalar.abs c)) :=
  isWord_plain (unsigned_roundTo (unsigned_abs c))

/-- The magnitude one is written as such. -/
theorem label_of_eq_one {c : Float} (h : Scalar.eq (Scalar.abs c) (Scalar.one : Float) = true) :
    Coefficient.label (Scalar.abs c) = "1" := by
  have hbits : Binary.ofFloat? 1 = some ⟨false, 2 ^ 52, -52⟩ := by decide
  have hone : Scalar.abs c = (1 : Float) := Binary.eq_of_beq hbits (by decide) h
  rw [hone]
  decide +kernel

end Number

end SymbolicRegression
