import Mathlib
import SymbolicRegression.Number.Decimal
import SymbolicRegression.Proofs.FloatOrder

/-!
# Doubles and their bits

A double is known by its bits, and computed with in a form in which sign, mantissa and exponent are
apart. `Binary.ofFloat?` reads the same three off the bits. The two readings agree, a finite double
has exactly one of them, and the bits can be had back from it. So doubles that compare as equal are the
same unless they are zeros.
-/

namespace SymbolicRegression

open Float.Model (Format UnpackedFloat)
open Float.Model.UnpackedFloat (Sign)

/-! ## Fields -/

namespace Bits

theorem toNat_unpackMantissa (b : BitVec 64) :
    (@UnpackedFloat.unpackMantissa Format.binary64 b).toNat = b.toNat % 2 ^ 52 := by
  rw [UnpackedFloat.unpackMantissa, BitVec.toNat_cast, BitVec.extractLsb_toNat]
  rfl

theorem toNat_unpackExponent (b : BitVec 64) :
    (@UnpackedFloat.unpackExponent Format.binary64 b).toNat = b.toNat / 2 ^ 52 % 2 ^ 11 := by
  rw [UnpackedFloat.unpackExponent, BitVec.toNat_cast, BitVec.extractLsb_toNat,
    Nat.shiftRight_eq_div_pow]
  rfl

theorem toNat_unpackSign (b : BitVec 64) :
    (@UnpackedFloat.unpackSign Format.binary64 b).toNat = b.toNat / 2 ^ 63 := by
  have hb := b.isLt
  rw [UnpackedFloat.unpackSign, BitVec.toNat_cast, BitVec.extractLsb_toNat,
    Nat.shiftRight_eq_div_pow]
  show b.toNat / 2 ^ 63 % 2 ^ 1 = b.toNat / 2 ^ 63
  omega

/-- The sign that a set or a clear bit stands for. -/
def signOf (negative : Bool) : Sign :=
  if negative then .negative else .positive

theorem ofBitVec_unpackSign (b : BitVec 64) :
    Sign.ofBitVec (@UnpackedFloat.unpackSign Format.binary64 b) =
      signOf (decide (b.toNat / 2 ^ 63 = 1)) := by
  have hsign := toNat_unpackSign b
  have hlt := (@UnpackedFloat.unpackSign Format.binary64 b).isLt
  have hzero : @UnpackedFloat.unpackSign Format.binary64 b = 0#1 ↔ b.toNat / 2 ^ 63 = 0 := by
    rw [← BitVec.toNat_inj, hsign, BitVec.toNat_ofNat]
  rw [Sign.ofBitVec, signOf]
  by_cases h : b.toNat / 2 ^ 63 = 0
  · rw [if_pos (hzero.mpr h), h]
    rfl
  · have hone : b.toNat / 2 ^ 63 = 1 := by omega
    rw [if_neg (hzero.not.mpr h), hone]
    rfl

end Bits

/-! ## Finite doubles -/

namespace Binary

/-- A mantissa below `2 ^ 52` goes with the least exponent, and any other has 53 bits. -/
def Canonical (b : Binary) : Prop :=
  (b.mantissa < 2 ^ 52 ∧ b.exponent = -1074) ∨
    (2 ^ 52 ≤ b.mantissa ∧ b.mantissa < 2 ^ 53 ∧ -1074 ≤ b.exponent ∧ b.exponent ≤ 971)

/-- The form that is computed with. -/
def unpacked (b : Binary) : UnpackedFloat :=
  if h : b.mantissa = 0 then .zero (Bits.signOf b.negative)
  else .finite (Bits.signOf b.negative) b.mantissa b.exponent (Nat.pos_of_ne_zero h)

/-- The bits without the sign: the exponent, then the mantissa without its leading bit. -/
def magnitudeBits (b : Binary) : Nat :=
  if b.mantissa < 2 ^ 52 then b.mantissa
  else (b.exponent + 1075).toNat * 2 ^ 52 + (b.mantissa - 2 ^ 52)

/-- The bits that hold a number. -/
def bits (b : Binary) : Nat :=
  (if b.negative then 2 ^ 63 else 0) + b.magnitudeBits

variable {x y : Float} {b : Binary}

theorem ofFloat?_eq (x : Float) : ofFloat? x =
    if x.toBits.toNat / 2 ^ 52 % 2 ^ 11 = 2047 then none
    else if x.toBits.toNat / 2 ^ 52 % 2 ^ 11 = 0 then
      some ⟨decide (x.toBits.toNat / 2 ^ 63 = 1), x.toBits.toNat % 2 ^ 52, -1074⟩
    else
      some ⟨decide (x.toBits.toNat / 2 ^ 63 = 1), 2 ^ 52 + x.toBits.toNat % 2 ^ 52,
        ((x.toBits.toNat / 2 ^ 52 % 2 ^ 11 : Nat) : Int) - 1075⟩ := rfl

/-- Either reading of the bits says that there is no finite number, or both say which one it is. -/
theorem ofFloat?_cases (x : Float) :
    (ofFloat? x = none ∧ x.toModel.unpack.isFinite = false) ∨
      ∃ b, ofFloat? x = some b ∧ b.Canonical ∧ x.toModel.unpack = b.unpacked ∧
        x.toBits.toNat = b.bits := by
  have hlt : x.toBits.toNat < 2 ^ 64 := x.toBits.toBitVec.isLt
  have hsign := Bits.ofBitVec_unpackSign x.toBits.toBitVec
  have hmantissa := Bits.toNat_unpackMantissa x.toBits.toBitVec
  have hexponent := Bits.toNat_unpackExponent x.toBits.toBitVec
  change _ = x.toBits.toNat % 2 ^ 52 at hmantissa
  change _ = x.toBits.toNat / 2 ^ 52 % 2 ^ 11 at hexponent
  have hall : @UnpackedFloat.unpackExponent Format.binary64 x.toBits.toBitVec = -1#_ ↔
      x.toBits.toNat / 2 ^ 52 % 2 ^ 11 = 2047 := by
    rw [← BitVec.toNat_inj, hexponent]
    rfl
  have hclear : @UnpackedFloat.unpackExponent Format.binary64 x.toBits.toBitVec = 0#_ ↔
      x.toBits.toNat / 2 ^ 52 % 2 ^ 11 = 0 := by
    rw [← BitVec.toNat_inj, hexponent]
    rfl
  have hnone : @UnpackedFloat.unpackMantissa Format.binary64 x.toBits.toBitVec = 0#_ ↔
      x.toBits.toNat % 2 ^ 52 = 0 := by
    rw [← BitVec.toNat_inj, hmantissa]
    rfl
  have hnegative : (if decide (x.toBits.toNat / 2 ^ 63 = 1) = true then 2 ^ 63 else 0) =
      x.toBits.toNat / 2 ^ 63 * 2 ^ 63 := by
    have htwo : x.toBits.toNat / 2 ^ 63 = 0 ∨ x.toBits.toNat / 2 ^ 63 = 1 := by omega
    rcases htwo with hzero | hone
    · rw [hzero]; rfl
    · rw [hone]; rfl
  have hunpack : x.toModel.unpack = UnpackedFloat.unpack Format.binary64 x.toBits.toBitVec := rfl
  rw [ofFloat?_eq]
  by_cases htop : x.toBits.toNat / 2 ^ 52 % 2 ^ 11 = 2047
  · refine .inl ⟨if_pos htop, ?_⟩
    rw [hunpack, UnpackedFloat.unpack]
    simp only [if_pos (hall.mpr htop)]
    split
    · rfl
    · rfl
  refine .inr ?_
  by_cases hbottom : x.toBits.toNat / 2 ^ 52 % 2 ^ 11 = 0
  · refine ⟨_, (if_neg htop).trans (if_pos hbottom), .inl ⟨Nat.mod_lt _ (by decide), rfl⟩, ?_, ?_⟩
    · rw [hunpack, UnpackedFloat.unpack, unpacked]
      simp only [if_neg (hall.not.mpr htop), if_pos (hclear.mpr hbottom), hsign]
      by_cases hzero : x.toBits.toNat % 2 ^ 52 = 0
      · rw [dif_pos (hnone.mpr hzero), dif_pos hzero]
        rfl
      · rw [dif_neg (hnone.not.mpr hzero), dif_neg hzero]
        simp only [hmantissa, hexponent, hbottom]
        rfl
    · rw [bits, magnitudeBits]
      dsimp only
      rw [if_pos (Nat.mod_lt _ (by decide)), hnegative]
      omega
  · refine ⟨_, (if_neg htop).trans (if_neg hbottom), .inr ?_, ?_, ?_⟩
    · dsimp only
      omega
    · rw [hunpack, UnpackedFloat.unpack, unpacked]
      simp only [if_neg (hall.not.mpr htop), if_neg (hclear.not.mpr hbottom), hsign]
      rw [dif_neg (by omega), UnpackedFloat.finite.injEq]
      refine ⟨rfl, ?_, ?_⟩
      · rw [BitVec.toNat_append, ← Nat.shiftLeft_add_eq_or_of_lt (BitVec.isLt _), hmantissa]
        rfl
      · rw [hexponent]
        rfl
    · rw [bits, magnitudeBits]
      dsimp only
      rw [hnegative, if_neg (by omega)]
      omega

theorem ofFloat?_eq_some (h : ofFloat? x = some b) :
    b.Canonical ∧ x.toModel.unpack = b.unpacked ∧ x.toBits.toNat = b.bits := by
  rcases ofFloat?_cases x with ⟨hnone, -⟩ | ⟨b', hb, hread⟩
  · rw [hnone] at h
    cases h
  · rw [hb] at h
    cases h
    exact hread

theorem exists_of_isFinite (h : x.isFinite = true) : ∃ b, ofFloat? x = some b := by
  rcases ofFloat?_cases x with ⟨-, hinfinite⟩ | ⟨b, hb, -⟩
  · rw [show x.isFinite = x.toModel.unpack.isFinite from rfl, hinfinite] at h
    cases h
  · exact ⟨b, hb⟩

theorem eq_of_toBits_eq (h : x.toBits = y.toBits) : x = y := by
  obtain ⟨⟨bits, hx⟩⟩ := x
  obtain ⟨⟨bits', hy⟩⟩ := y
  obtain rfl : bits = bits' := h
  rfl

/-! ## Packing -/

/-- The sign, the exponent and the mantissa stand side by side. -/
theorem toNat_packComponents (s : Sign) (e : BitVec 11) (m : BitVec 52) :
    (UnpackedFloat.packComponents Format.binary64 s e m).toNat =
      s.toBitVec.toNat * 2 ^ 63 + e.toNat * 2 ^ 52 + m.toNat := by
  rw [UnpackedFloat.packComponents, BitVec.toNat_append, BitVec.toNat_append,
    ← Nat.shiftLeft_add_eq_or_of_lt e.isLt, ← Nat.shiftLeft_add_eq_or_of_lt m.isLt,
    Nat.shiftLeft_eq, Nat.shiftLeft_eq]
  omega

/-- What is read off packed components. -/
def ofComponents (s : Sign) (e : BitVec 11) (m : BitVec 52) : Option Binary :=
  if e.toNat = 2047 then none
  else if e.toNat = 0 then some ⟨s == .negative, m.toNat, -1074⟩
  else some ⟨s == .negative, 2 ^ 52 + m.toNat, (e.toNat : Int) - 1075⟩

theorem ofFloat?_eq_ofComponents {s : Sign} {e : BitVec 11} {m : BitVec 52}
    (h : x.toBits.toBitVec = UnpackedFloat.packComponents Format.binary64 s e m) :
    ofFloat? x = ofComponents s e m := by
  have hbits : x.toBits.toNat = s.toBitVec.toNat * 2 ^ 63 + e.toNat * 2 ^ 52 + m.toNat := by
    rw [← toNat_packComponents, ← h]
    rfl
  have he := e.isLt
  have hm := m.isLt
  have hsign : s.toBitVec.toNat < 2 ^ 1 := s.toBitVec.isLt
  have hnegative : decide (s.toBitVec.toNat = 1) = (s == .negative) := by
    cases s with
    | negative => rfl
    | positive => rfl
  have hs : x.toBits.toNat / 2 ^ 63 = s.toBitVec.toNat := by omega
  have hexponent : x.toBits.toNat / 2 ^ 52 % 2 ^ 11 = e.toNat := by omega
  have hmantissa : x.toBits.toNat % 2 ^ 52 = m.toNat := by omega
  rw [ofFloat?_eq, hs, hexponent, hmantissa, hnegative, ofComponents]

/-- Finite numbers are packed with the exponent that they have, or as an infinity. -/
theorem pack_finite (s : Sign) {m : Nat} (e : Int) (hm : 0 < m) :
    UnpackedFloat.pack Format.binary64 (.finite s m e hm) =
      if 2 ^ 11 ≤ (e + 1023 + 52).toNat + 1 then
        UnpackedFloat.packComponents Format.binary64 s (-1#_) 0
      else if m.log2 + 1 = 53 then
        UnpackedFloat.packComponents Format.binary64 s (BitVec.ofNat _ (e + 1023 + 52).toNat)
          (BitVec.ofNat _ m)
      else UnpackedFloat.packComponents Format.binary64 s 0 (BitVec.ofNat _ m) := rfl

/-- The double that holds a finite number. -/
def toFloat (b : Binary) : Float :=
  .ofModel (.pack b.unpacked)

/-- The number of the other sign. -/
def flip (b : Binary) : Binary :=
  { b with negative := !b.negative }

theorem beq_signOf (negative : Bool) : (Bits.signOf negative == .negative) = negative := by
  cases negative with
  | true => rfl
  | false => rfl

theorem ofFloat?_toFloat (h : b.Canonical) : ofFloat? b.toFloat = some b := by
  obtain ⟨s, m, e⟩ := b
  by_cases hzero : m = 0
  · subst hzero
    have he : e = -1074 := by
      rcases h with ⟨-, he⟩ | ⟨hm, -⟩
      · exact he
      · dsimp only at hm
        omega
    have hpack : (toFloat ⟨s, 0, e⟩).toBits.toBitVec =
        UnpackedFloat.packComponents Format.binary64 (Bits.signOf s) 0 0 := rfl
    rw [ofFloat?_eq_ofComponents hpack, ofComponents, beq_signOf, he]
    rfl
  · have hpack : (toFloat ⟨s, m, e⟩).toBits.toBitVec = UnpackedFloat.pack Format.binary64
        (.finite (Bits.signOf s) m e (Nat.pos_of_ne_zero hzero)) := by
      show UnpackedFloat.pack Format.binary64 (unpacked ⟨s, m, e⟩) = _
      rw [unpacked, dif_neg hzero]
    rw [pack_finite] at hpack
    rcases h with ⟨hm, he⟩ | ⟨hlow, hhigh, hmin, hmax⟩
    · dsimp only at hm he
      have hlog : m.log2 < 52 := (Nat.log2_lt hzero).mpr hm
      rw [if_neg (by omega), if_neg (by omega)] at hpack
      rw [ofFloat?_eq_ofComponents hpack, ofComponents, beq_signOf, BitVec.toNat_ofNat,
        Nat.mod_eq_of_lt hm, he]
      rfl
    · dsimp only at hlow hhigh hmin hmax
      have hlog : m.log2 = 52 := (Nat.log2_eq_iff hzero).mpr ⟨hlow, hhigh⟩
      rw [if_neg (by omega), if_pos (by omega)] at hpack
      rw [ofFloat?_eq_ofComponents hpack, ofComponents, beq_signOf, BitVec.toNat_ofNat,
        BitVec.toNat_ofNat, Nat.mod_eq_of_lt (by omega), if_neg (by omega), if_neg (by omega)]
      congr 2
      · omega
      · omega

/-- A number is the only one that its double holds. -/
theorem toFloat_of_ofFloat? (h : ofFloat? x = some b) : b.toFloat = x := by
  obtain ⟨hcanonical, -, hbits⟩ := ofFloat?_eq_some h
  obtain ⟨-, -, hbits'⟩ := ofFloat?_eq_some (ofFloat?_toFloat hcanonical)
  exact eq_of_toBits_eq (UInt64.toNat_inj.mp (hbits'.trans hbits.symm))

/-- Turning the sign before packing turns the sign of the double. -/
theorem ofFloat?_pack_neg (u : UnpackedFloat) :
    ofFloat? (.ofModel (.pack u.neg)) = (ofFloat? (.ofModel (.pack u))).map flip := by
  have hcomponents : ∀ {x y : Float} {s : Sign} {e : BitVec 11} {m : BitVec 52},
      x.toBits.toBitVec = UnpackedFloat.packComponents Format.binary64 s e m →
      y.toBits.toBitVec = UnpackedFloat.packComponents Format.binary64 (-s) e m →
      ofFloat? y = (ofFloat? x).map flip := by
    intro x y s e m hx hy
    have hs : (-s == .negative) = !(s == .negative) := by
      cases s with
      | negative => rfl
      | positive => rfl
    rw [ofFloat?_eq_ofComponents hx, ofFloat?_eq_ofComponents hy, ofComponents, ofComponents, hs]
    split
    · rfl
    · split
      · rfl
      · rfl
  cases u with
  | notANumber => decide
  | infinity s => exact hcomponents (s := s) (e := -1#_) (m := 0) rfl rfl
  | zero s => exact hcomponents (s := s) (e := 0) (m := 0) rfl rfl
  | finite s m e hm =>
      by_cases hlarge : 2 ^ 11 ≤ (e + 1023 + 52).toNat + 1
      · exact hcomponents ((pack_finite s e hm).trans (if_pos hlarge))
          ((pack_finite (-s) e hm).trans (if_pos hlarge))
      · by_cases hnormal : m.log2 + 1 = 53
        · exact hcomponents
            ((pack_finite s e hm).trans ((if_neg hlarge).trans (if_pos hnormal)))
            ((pack_finite (-s) e hm).trans ((if_neg hlarge).trans (if_pos hnormal)))
        · exact hcomponents
            ((pack_finite s e hm).trans ((if_neg hlarge).trans (if_neg hnormal)))
            ((pack_finite (-s) e hm).trans ((if_neg hlarge).trans (if_neg hnormal)))

/-! ## Equality -/

open FloatOrder (rank rankOf)

variable {p q : Binary}

/-- Numbers of one rank are the same, or both are zero. -/
theorem eq_of_rankOf_eq (h : rankOf p.unpacked = rankOf q.unpacked) :
    p.mantissa = q.mantissa ∧ (q.mantissa ≠ 0 → p = q) := by
  obtain ⟨s, m, e⟩ := p
  obtain ⟨t, n, d⟩ := q
  rw [unpacked, unpacked] at h
  dsimp only at h ⊢
  split at h
  · next hm =>
      split at h
      · next hn => exact ⟨hm.trans hn.symm, fun hne => absurd hn hne⟩
      · cases t <;> cases congrArg (fun r => (ofLex r).1) h
  · split at h
    · cases s <;> cases congrArg (fun r => (ofLex r).1) h
    · cases s <;> cases t <;> simp_all [rankOf, Bits.signOf]

theorem rankOf_infinity_ne (s : Sign) (b : Binary) :
    rankOf (.infinity s) ≠ rankOf b.unpacked := by
  obtain ⟨t, m, e⟩ := b
  intro h
  have hfirst := congrArg (fun r => (ofLex r).1) h
  rw [unpacked] at hfirst
  split at hfirst
  · cases s <;> cases hfirst
  · cases s <;> cases t <;> cases hfirst

/-- Only the two zeros are equal without being the same. -/
theorem exists_of_beq (hy : ofFloat? y = some q) (h : (x == y) = true) :
    ∃ p, ofFloat? x = some p ∧ p.mantissa = q.mantissa ∧ (q.mantissa ≠ 0 → p = q) := by
  obtain ⟨⟨hnan, -⟩, hrank⟩ := FloatOrder.beq_iff.mp h
  rw [rank, rank, (ofFloat?_eq_some hy).2.1] at hrank
  rcases ofFloat?_cases x with ⟨-, hinfinite⟩ | ⟨p, hp, -, hunpack, -⟩
  · change x.toModel.unpack.isNaN = false at hnan
    cases hu : x.toModel.unpack with
    | notANumber => rw [hu] at hnan; cases hnan
    | infinity s => rw [hu] at hrank; exact absurd hrank (rankOf_infinity_ne s q)
    | zero s => rw [hu] at hinfinite; cases hinfinite
    | finite s m e hm => rw [hu] at hinfinite; cases hinfinite
  · rw [hunpack] at hrank
    exact ⟨p, hp, eq_of_rankOf_eq hrank⟩

theorem eq_of_beq (hy : ofFloat? y = some q) (hne : q.mantissa ≠ 0) (h : (x == y) = true) :
    x = y := by
  obtain ⟨p, hp, -, heq⟩ := exists_of_beq hy h
  rw [← toFloat_of_ofFloat? hp, ← toFloat_of_ofFloat? hy, heq hne]

end Binary

end SymbolicRegression
