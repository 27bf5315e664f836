import SymbolicRegression.Number.Rounding
import SymbolicRegression.Proofs.Doubles.Shortest
import SymbolicRegression.Proofs.Expansion.Rationals

/-!
# Rounding to decimals

A finite double that is rounded to decimals stays finite: the division that ends it goes by more than
two, so it leads away from the largest numbers. And it does not matter whether the sign is taken off
before or after: multiplying, rounding to a whole number and dividing all treat the two signs alike.
Only a zero may lose its sign, which its value does not show.
-/

namespace SymbolicRegression

open Float.Model (Format UnpackedFloat)
open Float.Model.UnpackedFloat

namespace Binary

variable {x y s : Float} {b p q : Binary}

/-! ## Turning the sign -/

/-- Both are the same number but for the sign, or neither is a number. -/
def Opposite (x y : Float) : Prop :=
  ofFloat? y = (ofFloat? x).map flip

theorem unpacked_flip (b : Binary) : b.flip.unpacked = b.unpacked.neg := by
  have hsign : Bits.signOf (!b.negative) = -Bits.signOf b.negative := by
    cases b.negative <;> rfl
  rw [unpacked, unpacked]
  show (if h : b.mantissa = 0 then UnpackedFloat.zero (Bits.signOf (!b.negative))
    else .finite (Bits.signOf (!b.negative)) b.mantissa b.exponent _) = _
  rw [hsign]
  split
  · rfl
  · rfl

theorem flip_flip (b : Binary) : b.flip.flip = b := by
  obtain ⟨negative, m, e⟩ := b
  cases negative <;> rfl

theorem isFinite_iff : x.isFinite = true ↔ ∃ b, ofFloat? x = some b := by
  refine ⟨exists_of_isFinite, fun ⟨b, hb⟩ => ?_⟩
  show x.toModel.unpack.isFinite = true
  rw [(ofFloat?_eq_some hb).2.1, unpacked]
  split
  · rfl
  · rfl

theorem Opposite.isFinite (h : Opposite x y) : y.isFinite = x.isFinite := by
  rw [Bool.eq_iff_iff, isFinite_iff, isFinite_iff, h]
  cases ofFloat? x with
  | none => simp
  | some b => simp

theorem Opposite.unpack (h : Opposite x y) (hx : ofFloat? x = some b) :
    y.toModel.unpack = x.toModel.unpack.neg := by
  rw [Opposite, hx] at h
  rw [(ofFloat?_eq_some hx).2.1, (ofFloat?_eq_some h).2.1, unpacked_flip]

theorem neg_mul_sign (s t : Sign) : -s * t = -(s * t) := by
  cases s <;> cases t <;> rfl

theorem neg_div_sign (s t : Sign) : -s / t = -(s / t) := by
  cases s <;> cases t <;> rfl

theorem roundWithAccuracy_neg (s : Sign) (m : ℕ) (e : ℤ) (accuracy : Accuracy) :
    roundWithAccuracy Format.binary64 (-s) m e accuracy =
      (roundWithAccuracy Format.binary64 s m e accuracy).neg := by
  rw [roundWithAccuracy, roundWithAccuracy]
  dsimp only
  split
  · rfl
  · rfl

theorem mul_neg_left (u v : UnpackedFloat) :
    mul Format.binary64 u.neg v = (mul Format.binary64 u v).neg := by
  cases u <;> cases v
  case finite.finite s m e hm s' m' e' hm' =>
    show roundWithAccuracy Format.binary64 (-s * s') (m * m') (e + e') .exact = _
    rw [neg_mul_sign, roundWithAccuracy_neg]
    rfl
  all_goals first
    | rfl
    | exact congrArg UnpackedFloat.infinity (neg_mul_sign _ _)
    | exact congrArg UnpackedFloat.zero (neg_mul_sign _ _)

theorem div_neg_left (u v : UnpackedFloat) :
    div Format.binary64 u.neg v = (div Format.binary64 u v).neg := by
  cases u <;> cases v
  case finite.finite s m e hm s' m' e' hm' =>
    show roundWithAccuracy Format.binary64 (-s / s') (divCore Format.binary64 m e m' e').1
      (divCore Format.binary64 m e m' e').2.1 (divCore Format.binary64 m e m' e').2.2 = _
    rw [neg_div_sign, roundWithAccuracy_neg]
    rfl
  all_goals first
    | rfl
    | exact congrArg UnpackedFloat.infinity (neg_div_sign _ _)
    | exact congrArg UnpackedFloat.zero (neg_div_sign _ _)

theorem Opposite.mul (h : Opposite x y) (hx : ofFloat? x = some b) (s : Float) :
    Opposite (x * s) (y * s) := by
  have hmul : y * s = .ofModel
      (.pack (UnpackedFloat.mul Format.binary64 x.toModel.unpack s.toModel.unpack).neg) := by
    rw [← mul_neg_left, ← h.unpack hx]
    rfl
  rw [Opposite, hmul]
  exact ofFloat?_pack_neg _

theorem Opposite.div (h : Opposite x y) (hx : ofFloat? x = some b) (s : Float) :
    Opposite (x / s) (y / s) := by
  have hdiv : y / s = .ofModel
      (.pack (UnpackedFloat.div Format.binary64 x.toModel.unpack s.toModel.unpack).neg) := by
    rw [← div_neg_left, ← h.unpack hx]
    rfl
  rw [Opposite, hdiv]
  exact ofFloat?_pack_neg _

theorem opposite_neg (hx : ofFloat? x = some b) : Opposite x (-x) := by
  have hpack : x = .ofModel (.pack x.toModel.unpack) := by
    rw [(ofFloat?_eq_some hx).2.1]
    exact (toFloat_of_ofFloat? hx).symm
  have hneg : -x = .ofModel (.pack x.toModel.unpack.neg) := rfl
  rw [Opposite, hneg, ofFloat?_pack_neg, ← hpack]

theorem Opposite.symm (h : Opposite x y) : Opposite y x := by
  rw [Opposite, h, Option.map_map]
  have hid : flip ∘ flip = id := funext flip_flip
  rw [hid, Option.map_id]
  rfl

/-- The magnitude of a negative number is its opposite. -/
theorem ofFloat?_abs (hx : ofFloat? x = some b) :
    ofFloat? x.abs = some { b with negative := false } := by
  obtain ⟨hcanonical, hunpack, -⟩ := ofFloat?_eq_some hx
  have habs : x.abs = toFloat { b with negative := false } := by
    show Float.ofModel (.pack x.toModel.unpack.abs) = .ofModel (.pack _)
    rw [hunpack, unpacked, unpacked]
    split
    · rfl
    · rfl
  rw [habs]
  exact ofFloat?_toFloat hcanonical

/-! ## Rounding to whole numbers -/

variable {n : ℕ}

/-- Whole numbers of at most 53 bits are exact. -/
theorem ofFloat?_ofNat (hpos : 0 < n) (hlt : n < 2 ^ 53) :
    ofFloat? (Float.ofNat n) = some (ofWhole n) := by
  have hbits := (ofWhole_bits hpos hlt).1
  have hcanonical := canonical_ofWhole hpos hlt
  have hread := readsBack_magnitude (b := ofWhole n) (by omega)
  have hvalue : (ofWhole n).magnitude = n * 10 ^ (0 : ℤ) := by
    rw [magnitude_ofWhole, zpow_zero, mul_one]
  rw [hvalue] at hread
  have hfloat : Float.ofNat n = (ofWhole n).toFloat :=
    hread.ofScientific_eq hcanonical (by omega) rfl hpos (by omega) (by omega)
  rw [hfloat]
  exact ofFloat?_toFloat hcanonical

theorem exists_ofFloat?_ofNat (hlt : n < 2 ^ 53) :
    ∃ b, ofFloat? (Float.ofNat n) = some b ∧ b.negative = false ∧ b.magnitude = n := by
  rcases Nat.eq_zero_or_pos n with rfl | hpos
  · exact ⟨⟨false, 0, -1074⟩, by decide, rfl, by rw [magnitude, Nat.cast_zero, zero_mul]⟩
  · exact ⟨ofWhole n, ofFloat?_ofNat hpos hlt, rfl, magnitude_ofWhole n⟩

theorem roundDiv_lt (tie : Tie) {a d : ℕ} (ha : a < 2 ^ 53) (hd : 2 ≤ d) :
    roundDiv tie a d < 2 ^ 53 := by
  have hhalf : a / d ≤ a / 2 := Nat.div_le_div_left hd (by decide)
  rcases Decimal.roundDiv_eq_or tie a d with h | h
  · omega
  · omega

/-! ## Division -/

theorem magnitude_lt (hb : b.Canonical) : b.magnitude < 2 ^ (1024 : ℤ) := by
  have hmax := hb.exponent_le
  calc (b.mantissa : ℚ) * 2 ^ b.exponent < 2 ^ (53 : ℤ) * 2 ^ b.exponent := by
        gcongr
        exact_mod_cast hb.lt
    _ = 2 ^ (53 + b.exponent) := (zpow_add₀ (by norm_num) _ _).symm
    _ ≤ 2 ^ (1024 : ℤ) := zpow_le_zpow_right₀ (by norm_num) (by omega)

theorem signOf_beq (s : Sign) : Bits.signOf (s == .negative) = s := by
  cases s <;> rfl

/-- Dividing by at least two gives a double, as the quotient is in range. -/
theorem exists_canonical_div (hp : p.Canonical) (hpos : 0 < p.mantissa) (hqpos : 0 < q.mantissa)
    (hq : 2 ≤ q.magnitude) (s₁ s₂ : Sign) :
    ∃ b : Binary, b.Canonical ∧ div Format.binary64 (.finite s₁ p.mantissa p.exponent hpos)
      (.finite s₂ q.mantissa q.exponent hqpos) = b.unpacked := by
  have hquotient : p.magnitude / q.magnitude < 2 ^ (1023 : ℤ) := by
    rw [div_lt_iff₀ (magnitude_pos hqpos)]
    calc p.magnitude < 2 ^ (1023 + 1 : ℤ) := magnitude_lt hp
      _ = 2 ^ (1023 : ℤ) * 2 := zpow_add_one₀ (by norm_num) _
      _ ≤ 2 ^ (1023 : ℤ) * q.magnitude := by gcongr
  obtain ⟨E, hmax, hE⟩ :=
    Rounding.exists_isTarget (div_pos (magnitude_pos hpos) (magnitude_pos hqpos)) hquotient
  have hr : p.mantissa * 2 ^ p.exponent / (q.mantissa * 2 ^ q.exponent) =
      p.magnitude / q.magnitude := rfl
  obtain ⟨hreads, hbits⟩ := Rounding.divCore_spec hpos hqpos hr
  obtain ⟨n, hle, hn, hround⟩ := Rounding.roundWithAccuracy_eq (s₁ / s₂) hreads hE (hbits E hE)
  obtain ⟨b, hb, hunpacked⟩ := exists_canonical_rounded ((s₁ / s₂) == .negative) hE hmax hn hle
  rw [signOf_beq, ← hround] at hunpacked
  exact ⟨b, hb, hunpacked⟩

/-- A quotient by at least two stays finite. -/
theorem exists_ofFloat?_div (hx : ofFloat? x = some p) (hy : ofFloat? y = some q)
    (hq : 2 ≤ q.magnitude) : ∃ b, ofFloat? (x / y) = some b := by
  obtain ⟨hp, hxunpack, -⟩ := ofFloat?_eq_some hx
  have hyunpack := (ofFloat?_eq_some hy).2.1
  have hqpos : 0 < q.mantissa := by
    by_contra hzero
    rw [magnitude, Nat.eq_zero_of_not_pos hzero, Nat.cast_zero, zero_mul] at hq
    exact absurd hq (by norm_num)
  have hunpacked : ∃ b : Binary, b.Canonical ∧
      UnpackedFloat.div Format.binary64 x.toModel.unpack y.toModel.unpack = b.unpacked := by
    rw [hxunpack, hyunpack, unpacked_of_pos hqpos]
    rcases Nat.eq_zero_or_pos p.mantissa with hzero | hpos
    · refine ⟨⟨(Bits.signOf p.negative / Bits.signOf q.negative) == .negative, 0, -1074⟩,
        canonical_of_lt _ (by decide), ?_⟩
      rw [unpacked, dif_pos hzero, unpacked, dif_pos rfl, signOf_beq]
      rfl
    · rw [unpacked_of_pos hpos]
      exact exists_canonical_div hp hpos hqpos hq _ _
  obtain ⟨b, hb, hdiv⟩ := hunpacked
  refine ⟨b, ?_⟩
  rw [← ofFloat?_toFloat hb, toFloat, ← hdiv]
  rfl

end Binary

namespace Number

open Binary (Opposite ofFloat? ofFloat?_eq_some)

variable {x y : Float} {b : Binary}

theorem roundHalfAway_eq (hx : ofFloat? x = some b) :
    roundHalfAway x = if 0 ≤ b.exponent then x
      else b.withWhole (roundDiv .up b.mantissa (2 ^ b.exponent.natAbs)) := by
  rw [roundHalfAway, hx]
  rfl

theorem exists_roundHalfAway (hx : ofFloat? x = some b) :
    ∃ b', ofFloat? (roundHalfAway x) = some b' := by
  rw [roundHalfAway_eq hx]
  split
  · exact ⟨b, hx⟩
  · next hexponent =>
      have hpow : 2 ≤ 2 ^ b.exponent.natAbs := Nat.le_self_pow (by omega) 2
      obtain ⟨b', hb', -⟩ := Binary.exists_ofFloat?_ofNat
        (Binary.roundDiv_lt .up (ofFloat?_eq_some hx).1.lt hpow)
      rw [Binary.withWhole]
      split
      · exact ⟨b'.flip,
          (Binary.opposite_neg hb').trans (congrArg (Option.map Binary.flip) hb')⟩
      · exact ⟨b', hb'⟩

theorem opposite_roundHalfAway (h : Opposite x y) (hx : ofFloat? x = some b) :
    Opposite (roundHalfAway x) (roundHalfAway y) := by
  have hy : ofFloat? y = some b.flip := by
    rw [h, hx]
    rfl
  rw [roundHalfAway_eq hx, roundHalfAway_eq hy]
  by_cases hexponent : 0 ≤ b.exponent
  · rwa [if_pos hexponent, if_pos (show 0 ≤ b.flip.exponent from hexponent)]
  · rw [if_neg hexponent, if_neg (show ¬0 ≤ b.flip.exponent from hexponent)]
    have hpow : 2 ≤ 2 ^ b.exponent.natAbs := Nat.le_self_pow (by omega) 2
    obtain ⟨b', hb', -⟩ := Binary.exists_ofFloat?_ofNat
      (Binary.roundDiv_lt .up (ofFloat?_eq_some hx).1.lt hpow)
    have hwhole := Binary.opposite_neg hb'
    obtain ⟨negative, m, e⟩ := b
    cases negative with
    | true => exact hwhole.symm
    | false => exact hwhole

/-! ## Rounding to twelve decimals -/

/-- The power of ten that numbers are scaled by. -/
theorem ofFloat?_scale : ofFloat? (Scalar.powInt (10 : Float) printedDecimals) =
    some ⟨false, 8192000000000000, -13⟩ := by
  decide +kernel

theorem two_le_scale : (2 : ℚ) ≤ Binary.magnitude ⟨false, 8192000000000000, -13⟩ := by
  rw [Binary.magnitude]
  norm_num

/-- Only a zero equals zero. -/
theorem mantissa_eq_zero (hx : ofFloat? x = some b) (h : (x == 0) = true) : b.mantissa = 0 := by
  have hzero : ofFloat? 0 = some ⟨false, 0, -1074⟩ := by decide
  obtain ⟨p, hp, hmantissa, -⟩ := Binary.exists_of_beq hzero h
  obtain rfl := Option.some.inj (hx.symm.trans hp)
  exact hmantissa

theorem ofDouble_eq (hx : ofFloat? x = some b) :
    Rational.ofDouble x = (if b.negative then -1 else 1) * b.mantissa * 2 ^ b.exponent := by
  rw [Rational.ofDouble, hx]

theorem ofDouble_opposite (h : Opposite x y) : Rational.ofDouble y = -Rational.ofDouble x := by
  rw [Rational.ofDouble, Rational.ofDouble, h]
  cases ofFloat? x with
  | none => exact neg_zero.symm
  | some b =>
      obtain ⟨negative, m, e⟩ := b
      cases negative with
      | true => simp [Binary.flip]
      | false => simp [Binary.flip]

/-- A double whose scaled form is in range is scaled, rounded and scaled back. -/
def unscaled (x : Float) : Float :=
  roundHalfAway (x * Scalar.powInt (10 : Float) printedDecimals) /
    Scalar.powInt (10 : Float) printedDecimals

theorem roundTo_eq (hx : x.isFinite = true) :
    roundTo x printedDecimals =
      if (x * Scalar.powInt (10 : Float) printedDecimals).isFinite then
        if unscaled x == 0 then 0 else unscaled x
      else x := by
  rw [roundTo, hx, if_neg (by decide)]
  dsimp only
  by_cases hscaled : (x * Scalar.powInt (10 : Float) printedDecimals).isFinite = true
  · rw [if_pos hscaled, hscaled]
    rfl
  · rw [if_neg hscaled, Bool.eq_false_iff.mpr hscaled]
    rfl

theorem exists_unscaled (h : (x * Scalar.powInt (10 : Float) printedDecimals).isFinite = true) :
    ∃ b, ofFloat? (unscaled x) = some b := by
  obtain ⟨b, hb⟩ := Binary.exists_of_isFinite h
  obtain ⟨b', hb'⟩ := exists_roundHalfAway hb
  exact Binary.exists_ofFloat?_div hb' ofFloat?_scale two_le_scale

/-- A finite double stays finite. -/
theorem exists_roundTo (hx : ofFloat? x = some b) :
    ∃ b', ofFloat? (roundTo x printedDecimals) = some b' := by
  rw [roundTo_eq (Binary.isFinite_iff.mpr ⟨b, hx⟩)]
  split
  · next hscaled =>
      split
      · exact Binary.exists_of_isFinite (by decide)
      · exact exists_unscaled hscaled
  · exact ⟨b, hx⟩

/-- What is rounded has the value of the scaled form, also where it is a zero. -/
theorem ofDouble_roundTo (hx : ofFloat? x = some b) :
    Rational.ofDouble (roundTo x printedDecimals) =
      if (x * Scalar.powInt (10 : Float) printedDecimals).isFinite then
        Rational.ofDouble (unscaled x)
      else Rational.ofDouble x := by
  rw [roundTo_eq (Binary.isFinite_iff.mpr ⟨b, hx⟩)]
  split
  · next hscaled =>
      split
      · next hzero =>
          obtain ⟨b', hb'⟩ := exists_unscaled hscaled
          have hfloat : Rational.ofDouble 0 = 0 := by decide +kernel
          rw [hfloat, ofDouble_eq hb', mantissa_eq_zero hb' hzero, Nat.cast_zero, mul_zero, zero_mul]
      · rfl
  · rfl

/-- Opposite numbers are rounded to opposite numbers. -/
theorem ofDouble_roundTo_opposite (h : Opposite x y) (hx : ofFloat? x = some b) :
    Rational.ofDouble (roundTo y printedDecimals) =
      -Rational.ofDouble (roundTo x printedDecimals) := by
  have hy : ofFloat? y = some b.flip := by
    rw [h, hx]
    rfl
  have hscaled := h.mul hx (Scalar.powInt (10 : Float) printedDecimals)
  rw [ofDouble_roundTo hx, ofDouble_roundTo hy, hscaled.isFinite]
  split
  · next hfinite =>
      obtain ⟨b', hb'⟩ := Binary.exists_of_isFinite hfinite
      obtain ⟨b'', hb''⟩ := exists_roundHalfAway hb'
      exact ofDouble_opposite ((opposite_roundHalfAway hscaled hb').div hb'' _)
  · exact ofDouble_opposite h

end Number

end SymbolicRegression
