import SymbolicRegression.Number.Reading
import SymbolicRegression.Proofs.Doubles.Rounding

/-!
# Reading the nearest double

A decimal number is read as the double nearest to it. Small coefficients and powers of ten are
doubles themselves and are multiplied or divided once, and all others go through whole numbers of any
size; either way the exact number is rounded a single time. So every number that reads back to a
double is read as that double, and whole numbers of at most 53 bits are read as what they are.
-/

namespace SymbolicRegression

open Float.Model (Format UnpackedFloat totalExponent)
open Float.Model.UnpackedFloat

/-! ## Quotients and products -/

namespace Rounding

theorem reads_accuracyOfFraction (a : ℕ) {d : ℕ} (hd : 0 < d) :
    Reads (.ofMantissaAndAccuracy (a / d) (accuracyOfFraction (a % d) d)) ((a : ℚ) / d) := by
  have hpos : (0 : ℚ) < d := by exact_mod_cast hd
  have hlt : a % d < d := Nat.mod_lt _ hd
  have hsplit : (a : ℚ) / d = (a / d : ℕ) + ((a % d : ℕ) : ℚ) / d := by
    have hmod : (a : ℚ) = d * (a / d : ℕ) + (a % d : ℕ) := by
      exact_mod_cast (Nat.div_add_mod a d).symm
    rw [div_eq_iff hpos.ne', add_mul, div_mul_cancel₀ _ hpos.ne', mul_comm]
    exact hmod
  rw [hsplit]
  generalize a / d = q
  generalize a % d = k at hlt
  rw [accuracyOfFraction]
  split
  · next hzero =>
      rw [hzero, Nat.cast_zero, zero_div, add_zero]
      exact reads_exact q
  · next hne =>
      have hk : (0 : ℚ) < k := by exact_mod_cast Nat.pos_of_ne_zero hne
      cases hcompare : compare (2 * k) d with
      | lt =>
          have h : (2 * k : ℚ) < d := by exact_mod_cast Nat.compare_eq_lt.mp hcompare
          have hhalf : (k : ℚ) / d < 1 / 2 := by
            rw [div_lt_div_iff₀ hpos two_pos]
            linarith
          show (q : ℚ) < q + k / d ∧ (q : ℚ) + k / d < q + 1 / 2
          exact ⟨lt_add_of_pos_right _ (by positivity), by linarith⟩
      | eq =>
          have h : (2 * k : ℚ) = d := by exact_mod_cast Nat.compare_eq_eq.mp hcompare
          have hhalf : (k : ℚ) / d = 1 / 2 := by
            rw [div_eq_div_iff hpos.ne' two_ne_zero]
            linarith
          show (q : ℚ) + k / d = q + 1 / 2
          rw [hhalf]
      | gt =>
          have h : (d : ℚ) < 2 * k := by exact_mod_cast Nat.compare_eq_gt.mp hcompare
          have hhalf : 1 / 2 < (k : ℚ) / d := by
            rw [div_lt_div_iff₀ two_pos hpos]
            linarith
          have hone : (k : ℚ) / d < 1 := by
            rw [div_lt_one hpos]
            exact_mod_cast hlt
          show (q : ℚ) + 1 / 2 < q + k / d ∧ (q : ℚ) + k / d < q + 1
          exact ⟨by linarith, by linarith⟩

variable {m₁ m₂ : ℕ} {e₁ e₂ : ℤ} {r : ℚ}

theorem two_zpow_log2_le {m : ℕ} (h : 0 < m) : (2 : ℚ) ^ (m.log2 : ℤ) ≤ m := by
  exact_mod_cast Nat.log2_self_le h.ne'

theorem lt_two_zpow_log2 (m : ℕ) : (m : ℚ) < 2 ^ ((m.log2 : ℤ) + 1) := by
  exact_mod_cast Nat.lt_log2_self

/-- The exponent of a quotient is low enough to leave all the bits that are needed. -/
theorem divCore_spec (h₁ : 0 < m₁) (h₂ : 0 < m₂) (hr : m₁ * 2 ^ e₁ / (m₂ * 2 ^ e₂) = r) :
    Reads (.ofMantissaAndAccuracy (divCore Format.binary64 m₁ e₁ m₂ e₂).1
        (divCore Format.binary64 m₁ e₁ m₂ e₂).2.2)
      (r / 2 ^ (divCore Format.binary64 m₁ e₁ m₂ e₂).2.1) ∧
    ∀ E, IsTarget r E → (divCore Format.binary64 m₁ e₁ m₂ e₂).2.1 ≤ E := by
  have hdivisor : (0 : ℚ) < m₂ * 2 ^ e₂ := by positivity
  have hnonneg : 0 ≤ r := by
    rw [← hr]
    positivity
  rw [div_eq_iff hdivisor.ne'] at hr
  rw [divCore]
  dsimp only
  generalize hT : Format.binary64.targetExponent (totalExponent m₁ e₁ - totalExponent m₂ e₂) = T
  refine ⟨?_, fun E hE => ?_⟩
  · have hshift : r / 2 ^ min (e₁ - e₂) T =
        ((m₁ <<< (e₁ - e₂ - min (e₁ - e₂) T).toNat : ℕ) : ℚ) / m₂ := by
      rw [Nat.shiftLeft_eq, Nat.cast_mul, Nat.cast_pow, Nat.cast_two, ← zpow_natCast,
        Int.toNat_of_nonneg (by omega), div_eq_div_iff (by positivity) (by positivity),
        mul_assoc, ← zpow_add₀ (by norm_num), sub_add_cancel, zpow_sub₀ (by norm_num)]
      rw [← mul_div_assoc, eq_div_iff (by positivity), hr]
      ring
    rw [hshift]
    exact reads_accuracyOfFraction _ h₂
  · have hlower : (2 : ℚ) ^ ((m₁.log2 : ℤ) + e₁) < 2 ^ (53 + E + (m₂.log2 + 1 + e₂)) := by
      calc (2 : ℚ) ^ ((m₁.log2 : ℤ) + e₁) = 2 ^ (m₁.log2 : ℤ) * 2 ^ e₁ :=
            zpow_add₀ (by norm_num) _ _
        _ ≤ m₁ * 2 ^ e₁ := by
            gcongr
            exact two_zpow_log2_le h₁
        _ = r * (m₂ * 2 ^ e₂) := hr
        _ < 2 ^ (53 + E) * (2 ^ ((m₂.log2 : ℤ) + 1) * 2 ^ e₂) := by
            gcongr
            · exact hE.upper
            · exact lt_two_zpow_log2 m₂
        _ = 2 ^ (53 + E + (m₂.log2 + 1 + e₂)) := by
            rw [← zpow_add₀ (by norm_num), ← zpow_add₀ (by norm_num)]
    have hle := (zpow_lt_zpow_iff_right₀ (by norm_num)).mp hlower
    have hleast := hE.least
    have hmax : T = max (totalExponent m₁ e₁ - totalExponent m₂ e₂ - 53) (-1074) := hT.symm
    rw [totalExponent, totalExponent] at hmax
    omega

/-- A number of 53 bits has all the bits that are needed. -/
theorem le_of_isTarget {m : ℕ} {e E : ℤ} (hE : IsTarget r E) (hr : (m : ℚ) * 2 ^ e = r)
    (hm : 2 ^ 52 ≤ m) : e ≤ E := by
  have hbits : (2 : ℚ) ^ (52 + e) < 2 ^ (53 + E) := by
    refine lt_of_le_of_lt ?_ hE.upper
    rw [← hr, zpow_add₀ (by norm_num)]
    gcongr
    exact_mod_cast hm
  have := (zpow_lt_zpow_iff_right₀ (by norm_num)).mp hbits
  omega

end Rounding

namespace Binary

open Rounding

variable {b : Binary} {m₁ m₂ : ℕ} {e₁ e₂ : ℤ} {s₁ s₂ : Sign} {r : ℚ}

theorem ReadsBack.div_eq (h : b.ReadsBack (m₁ * 2 ^ e₁ / (m₂ * 2 ^ e₂))) (hb : b.Canonical)
    (hpos : 0 < b.mantissa) (h₁ : 0 < m₁) (h₂ : 0 < m₂) (hs : s₁ / s₂ = Bits.signOf b.negative) :
    div Format.binary64 (.finite s₁ m₁ e₁ h₁) (.finite s₂ m₂ e₂ h₂) = b.unpacked := by
  obtain ⟨hreads, hbits⟩ := divCore_spec h₁ h₂ rfl
  have hround := h.roundWithAccuracy_eq hb hpos hreads hbits
  rw [← hs] at hround
  exact hround

theorem ReadsBack.mul_eq (h : b.ReadsBack (m₁ * 2 ^ e₁ * (m₂ * 2 ^ e₂))) (hb : b.Canonical)
    (hpos : 0 < b.mantissa) (h₁ : 0 < m₁) (h₂ : 0 < m₂) (hm : 2 ^ 52 ≤ m₁ * m₂)
    (hs : s₁ * s₂ = Bits.signOf b.negative) :
    mul Format.binary64 (.finite s₁ m₁ e₁ h₁) (.finite s₂ m₂ e₂ h₂) = b.unpacked := by
  have hr : ((m₁ * m₂ : ℕ) : ℚ) * 2 ^ (e₁ + e₂) = m₁ * 2 ^ e₁ * (m₂ * 2 ^ e₂) := by
    rw [zpow_add₀ (by norm_num), Nat.cast_mul]
    ring
  rw [← hr] at h
  have hreads : Reads (.ofMantissaAndAccuracy (m₁ * m₂) .exact)
      (((m₁ * m₂ : ℕ) : ℚ) * 2 ^ (e₁ + e₂) / 2 ^ (e₁ + e₂)) := by
    rw [mul_div_cancel_right₀ _ (by positivity)]
    exact reads_exact _
  have hround := h.roundWithAccuracy_eq hb hpos hreads fun E hE => le_of_isTarget hE rfl hm
  rw [← hs] at hround
  exact hround

/-! ## Whole numbers of at most 53 bits -/

/-- The magnitude of a number. -/
def magnitude (b : Binary) : ℚ :=
  b.mantissa * 2 ^ b.exponent

theorem magnitude_pos (hpos : 0 < b.mantissa) : 0 < b.magnitude := by
  rw [magnitude]
  positivity

/-- A number reads back to itself. -/
theorem readsBack_magnitude (hpos : 0 < b.mantissa) : b.ReadsBack b.magnitude := by
  have hunit : b.magnitude = (4 * b.mantissa : ℕ) * 2 ^ (b.exponent - 2) := by
    rw [magnitude, zpow_sub₀ (by norm_num)]
    push_cast
    ring
  have hbelow : 0 < b.below := by
    rw [below]
    split <;> omega
  have hlower : ((4 * b.mantissa - b.below : ℕ) : ℚ) * 2 ^ (b.exponent - 2) < b.magnitude := by
    rw [hunit]
    gcongr
    omega
  have hupper : b.magnitude < ((4 * b.mantissa + 2 : ℕ) : ℚ) * 2 ^ (b.exponent - 2) := by
    rw [hunit]
    gcongr
    omega
  exact readsBack_of_lt hlower hupper

/-- A double of 53 bits is rounded to itself. -/
theorem roundWithAccuracy_self (hb : b.Canonical) (hbits : 2 ^ 52 ≤ b.mantissa) :
    roundWithAccuracy Format.binary64 (Bits.signOf b.negative) b.mantissa b.exponent .exact =
      b.unpacked := by
  have hpos : 0 < b.mantissa := by omega
  refine (readsBack_magnitude hpos).roundWithAccuracy_eq hb hpos ?_
    fun E hE => le_of_isTarget hE rfl hbits
  rw [magnitude, mul_div_cancel_right₀ _ (by positivity)]
  exact reads_exact _

/-- A whole number with as many zero bits behind it as fill up 53. -/
def ofWhole (n : ℕ) : Binary :=
  ⟨false, n * 2 ^ (52 - n.log2), -((52 - n.log2 : ℕ) : ℤ)⟩

variable {n : ℕ}

theorem ofWhole_bits (hpos : 0 < n) (hlt : n < 2 ^ 53) :
    2 ^ 52 ≤ (ofWhole n).mantissa ∧ (ofWhole n).mantissa < 2 ^ 53 := by
  have hlog : n.log2 < 53 := (Nat.log2_lt hpos.ne').mpr hlt
  have hlow := Nat.log2_self_le hpos.ne'
  have hhigh := @Nat.lt_log2_self n
  constructor
  · calc 2 ^ 52 = 2 ^ n.log2 * 2 ^ (52 - n.log2) := by
          rw [← pow_add]
          congr 1
          omega
      _ ≤ n * 2 ^ (52 - n.log2) := Nat.mul_le_mul_right _ hlow
  · calc n * 2 ^ (52 - n.log2) < 2 ^ (n.log2 + 1) * 2 ^ (52 - n.log2) :=
          Nat.mul_lt_mul_of_pos_right hhigh (by positivity)
      _ = 2 ^ 53 := by
          rw [← pow_add]
          congr 1
          omega

theorem canonical_ofWhole (hpos : 0 < n) (hlt : n < 2 ^ 53) : (ofWhole n).Canonical := by
  obtain ⟨hlow, hhigh⟩ := ofWhole_bits hpos hlt
  have hexponent : (ofWhole n).exponent = -((52 - n.log2 : ℕ) : ℤ) := rfl
  exact .inr ⟨hlow, hhigh, by omega, by omega⟩

theorem magnitude_ofWhole (n : ℕ) : (ofWhole n).magnitude = n := by
  rw [magnitude, ofWhole]
  push_cast
  rw [zpow_neg, zpow_natCast, mul_assoc, mul_inv_cancel₀ (by positivity), mul_one]

/-- Small whole numbers are doubles. -/
theorem toFloat_toUInt64 (hpos : 0 < n) (hlt : n < 2 ^ 53) :
    n.toUInt64.toFloat = (ofWhole n).toFloat := by
  have hn : n.toUInt64.toNat = n := by
    rw [Nat.toUInt64_eq, UInt64.toNat_ofNat']
    omega
  have hlog : n.log2 < 53 := (Nat.log2_lt hpos.ne').mpr hlt
  have hshift : (0 - Format.binary64.targetExponent (totalExponent n 0)).toNat = 52 - n.log2 := by
    rw [targetExponent_eq]
    omega
  have hround : roundWithAccuracy Format.binary64 .positive (n * 2 ^ (52 - n.log2))
      (-((52 - n.log2 : ℕ) : ℤ)) .exact = (ofWhole n).unpacked :=
    roundWithAccuracy_self (b := ofWhole n) (canonical_ofWhole hpos hlt) (ofWhole_bits hpos hlt).1
  show Float.ofModel (.pack (.normalize Format.binary64 (n.toUInt64.toNat : ℤ) 0 .positive)) = _
  rw [hn, UnpackedFloat.normalize, Int.compare_eq_gt.mpr (by omega)]
  dsimp only
  rw [Int.toNat_natCast, UnpackedFloat.round, decreaseExponent]
  dsimp only
  rw [hshift, Nat.shiftLeft_eq, zero_sub, hround, toFloat]

/-! ## Decimal numbers -/

/-- Is this the number, with 53 bits? The powers of two are on the side where they are whole. -/
def isWhole (b : Binary) (n : ℕ) : Bool :=
  !b.negative && decide (2 ^ 52 ≤ b.mantissa) &&
    b.mantissa * 2 ^ b.exponent.toNat == n * 2 ^ (-b.exponent).toNat

theorem magnitude_of_isWhole (h : b.isWhole n = true) :
    b.negative = false ∧ 2 ^ 52 ≤ b.mantissa ∧ b.magnitude = n := by
  rw [isWhole, Bool.and_eq_true, Bool.and_eq_true, Bool.not_eq_true', decide_eq_true_iff,
    beq_iff_eq] at h
  obtain ⟨⟨hnegative, hbits⟩, hvalue⟩ := h
  refine ⟨hnegative, hbits, ?_⟩
  have hvalue' : (b.mantissa : ℚ) * 2 ^ (b.exponent.toNat : ℤ) =
      n * 2 ^ ((-b.exponent).toNat : ℤ) := by
    exact_mod_cast hvalue
  rw [magnitude, show b.exponent = b.exponent.toNat - (-b.exponent).toNat by omega,
    zpow_sub₀ (by norm_num), ← mul_div_assoc, hvalue', mul_div_cancel_right₀ _ (by positivity)]

/-- The doubles in the table are the powers of ten. -/
theorem exactlyRepresentablePowersOfTen_eq (i : Fin 23) :
    ∃ p, ofFloat? Float.exactlyRepresentablePowersOfTen[i] = some p ∧
      p.isWhole (10 ^ (i : ℕ)) = true := by
  have hall : ∀ i : Fin 23, (ofFloat? Float.exactlyRepresentablePowersOfTen[i]).any
      (·.isWhole (10 ^ (i : ℕ))) = true := by
    decide
  exact (Option.any_eq_true _ _).mp (hall i)

theorem unpacked_of_pos (hpos : 0 < b.mantissa) :
    b.unpacked = .finite (Bits.signOf b.negative) b.mantissa b.exponent hpos := by
  rw [unpacked, dif_neg hpos.ne']

section

variable {x y : Float} {p q : Binary}

theorem ReadsBack.mul_toFloat (h : b.ReadsBack (p.magnitude * q.magnitude)) (hb : b.Canonical)
    (hpos : 0 < b.mantissa) (hs : b.negative = false) (hx : ofFloat? x = some p)
    (hy : ofFloat? y = some q) (hp : 2 ^ 52 ≤ p.mantissa) (hq : 2 ^ 52 ≤ q.mantissa)
    (hps : p.negative = false) (hqs : q.negative = false) : x * y = b.toFloat := by
  have hbits : 2 ^ 52 ≤ p.mantissa * q.mantissa := by nlinarith
  have hsign : Sign.positive * Sign.positive = Bits.signOf b.negative := by
    rw [hs]
    rfl
  have hmul := h.mul_eq hb hpos (by omega) (by omega) hbits hsign
  show Float.ofModel (.pack (.mul Format.binary64 x.toModel.unpack y.toModel.unpack)) = _
  rw [(ofFloat?_eq_some hx).2.1, (ofFloat?_eq_some hy).2.1, unpacked_of_pos (by omega),
    unpacked_of_pos (by omega), hps, hqs, toFloat, ← hmul]
  rfl

theorem ReadsBack.div_toFloat (h : b.ReadsBack (p.magnitude / q.magnitude)) (hb : b.Canonical)
    (hpos : 0 < b.mantissa) (hs : b.negative = false) (hx : ofFloat? x = some p)
    (hy : ofFloat? y = some q) (hp : 0 < p.mantissa) (hq : 0 < q.mantissa)
    (hps : p.negative = false) (hqs : q.negative = false) : x / y = b.toFloat := by
  have hsign : Sign.positive / Sign.positive = Bits.signOf b.negative := by
    rw [hs]
    rfl
  have hdiv := h.div_eq hb hpos hp hq hsign
  show Float.ofModel (.pack (.div Format.binary64 x.toModel.unpack y.toModel.unpack)) = _
  rw [(ofFloat?_eq_some hx).2.1, (ofFloat?_eq_some hy).2.1, unpacked_of_pos hp,
    unpacked_of_pos hq, hps, hqs, toFloat, ← hdiv]
  rfl

end

variable {c : ℕ} {k : ℤ}

/-- Through whole numbers of any size. -/
theorem ReadsBack.ofScientific_unpacked (h : b.ReadsBack (c * 10 ^ k)) (hb : b.Canonical)
    (hpos : 0 < b.mantissa) (hs : b.negative = false) (hc : 0 < c) (hmax : k ≤ 2048)
    (hmin : -(2048 + (c.log2 : ℤ)) ≤ k) :
    UnpackedFloat.ofScientific Format.binary64 c k = b.unpacked := by
  have hbits : 2 ^ 52 ≤ c <<< 53 * 10 ^ k.toNat := by
    rw [Nat.shiftLeft_eq]
    have : 0 < 10 ^ k.toNat := by positivity
    nlinarith
  rw [UnpackedFloat.ofScientific, dif_neg hc.ne', if_neg, if_neg]
  · split
    · next hk =>
        have hexact : ((c <<< 53 : ℕ) : ℚ) * 2 ^ (-53 : ℤ) *
            (((10 ^ k.toNat : ℕ) : ℚ) * 2 ^ (0 : ℤ)) = c * 10 ^ k := by
          rw [Nat.shiftLeft_eq, zpow_zero, mul_one]
          push_cast
          rw [← zpow_natCast (10 : ℚ), Int.toNat_of_nonneg hk, zpow_neg]
          congr 1
          exact mul_inv_cancel_right₀ (by norm_num) _
        rw [← hexact] at h
        exact h.mul_eq hb hpos _ _ hbits (by rw [hs]; rfl)
    · next hk =>
        have hexact : (c : ℚ) * 2 ^ (0 : ℤ) / (((10 ^ (-k).toNat : ℕ) : ℚ) * 2 ^ (0 : ℤ)) =
            c * 10 ^ k := by
          rw [zpow_zero, mul_one, mul_one]
          push_cast
          rw [← zpow_natCast (10 : ℚ), Int.toNat_of_nonneg (by omega), zpow_neg, div_inv_eq_mul]
        rw [← hexact] at h
        exact h.div_eq hb hpos _ _ (by rw [hs]; rfl)
  · show ¬k < -(2 ^ 11 + (c.log2 : ℤ))
    omega
  · show ¬k > 2 ^ 11
    omega

/-- A decimal number that reads back to a double is converted to it. -/
theorem ReadsBack.ofScientific_eq (h : b.ReadsBack (c * 10 ^ k)) (hb : b.Canonical)
    (hpos : 0 < b.mantissa) (hs : b.negative = false) (hc : 0 < c) (hmax : k ≤ 2048)
    (hmin : -(2048 + (c.log2 : ℤ)) ≤ k) :
    Float.ofScientific c (decide (k < 0)) k.natAbs = b.toFloat := by
  rw [Float.ofScientific]
  split
  · next hsmall =>
      obtain ⟨hlt, hpower⟩ := hsmall
      obtain ⟨p, hp, hwhole⟩ := exactlyRepresentablePowersOfTen_eq ⟨k.natAbs, by omega⟩
      obtain ⟨hps, hpbits, hpvalue⟩ := magnitude_of_isWhole hwhole
      have hcbits := (ofWhole_bits hc hlt).1
      have hcfloat : ofFloat? c.toUInt64.toFloat = some (ofWhole c) := by
        rw [toFloat_toUInt64 hc hlt]
        exact ofFloat?_toFloat (canonical_ofWhole hc hlt)
      dsimp only
      by_cases hk : k < 0
      · rw [if_pos (decide_eq_true hk)]
        refine ReadsBack.div_toFloat ?_ hb hpos hs hcfloat hp (by omega) (by omega) rfl hps
        rw [magnitude_ofWhole, hpvalue]
        push_cast
        rwa [← zpow_natCast, Int.ofNat_natAbs_of_nonpos hk.le, zpow_neg, div_inv_eq_mul]
      · rw [if_neg (by simpa using hk)]
        refine ReadsBack.mul_toFloat ?_ hb hpos hs hcfloat hp (by omega) (by omega) rfl hps
        rw [magnitude_ofWhole, hpvalue]
        push_cast
        rwa [← zpow_natCast, Int.natAbs_of_nonneg (by omega)]
  · have hk : (if decide (k < 0) = true then Int.negOfNat k.natAbs else Int.ofNat k.natAbs) =
        k := by
      split
      · next hneg =>
          rw [Int.negOfNat_eq]
          have := of_decide_eq_true hneg
          show -(k.natAbs : ℤ) = k
          omega
      · next hneg =>
          have : ¬k < 0 := by simpa using hneg
          show (k.natAbs : ℤ) = k
          omega
    dsimp only
    rw [hk]
    show Float.ofModel (.pack (.ofScientific Format.binary64 c k)) = _
    rw [h.ofScientific_unpacked hb hpos hs hc hmax hmin, toFloat]

/-! ### Size -/

theorem two_pow_le_ten_pow : (2 : ℚ) ^ 1075 ≤ 10 ^ 400 :=
  calc (2 : ℚ) ^ 1075 ≤ 2 ^ (3 * 400) := pow_le_pow_right₀ (by norm_num) (by norm_num)
    _ = (2 ^ 3) ^ 400 := pow_mul _ _ _
    _ ≤ 10 ^ 400 := by gcongr; norm_num

theorem ReadsBack.bounds (h : b.ReadsBack r) (hb : b.Canonical) (hpos : 0 < b.mantissa) :
    2 ^ (-1075 : ℤ) ≤ r ∧ r < 2 ^ (1024 : ℤ) := by
  have hmin := hb.le
  have hmax := hb.exponent_le
  have hquarters : 2 ≤ 4 * b.mantissa - b.below := by
    have := b.below_le
    omega
  constructor
  · calc (2 : ℚ) ^ (-1075 : ℤ) = 2 * 2 ^ (-1076 : ℤ) := by
          rw [← zpow_one_add₀ (by norm_num)]
          norm_num
      _ ≤ (4 * b.mantissa - b.below : ℕ) * 2 ^ (b.exponent - 2) := by
          gcongr
          · exact_mod_cast hquarters
          · norm_num
          · omega
      _ ≤ r := h.lower
  · refine (h.lt hb hpos).trans_le (zpow_le_zpow_right₀ (by norm_num) (by omega))

theorem length_toDigits_le (c : ℕ) : (Nat.toDigits 10 c).length ≤ c.log2 + 1 := by
  rw [Nat.length_toDigits_le_iff (by decide) (by omega)]
  exact Nat.lt_log2_self.trans_le (Nat.pow_le_pow_left (by decide) _)

theorem pow_length_toDigits_le (hc : 0 < c) : 10 ^ ((Nat.toDigits 10 c).length - 1) ≤ c := by
  have hlength : 0 < (Nat.toDigits 10 c).length := Nat.length_toDigits_pos
  rcases Nat.eq_zero_or_pos ((Nat.toDigits 10 c).length - 1) with hzero | hone
  · rw [hzero]
    exact hc
  · by_contra hlt
    have := (Nat.length_toDigits_le_iff (by decide) hone).mpr (Nat.lt_of_not_le hlt)
    omega

theorem ReadsBack.size (h : b.ReadsBack (c * 10 ^ k)) (hb : b.Canonical)
    (hpos : 0 < b.mantissa) (hc : 0 < c) :
    -400 ≤ ((Nat.toDigits 10 c).length + k : ℤ) ∧ ((Nat.toDigits 10 c).length + k : ℤ) ≤ 400 := by
  obtain ⟨hlow, hhigh⟩ := h.bounds hb hpos
  have hlength : 0 < (Nat.toDigits 10 c).length := Nat.length_toDigits_pos
  have hdigits : (c : ℚ) < 10 ^ ((Nat.toDigits 10 c).length : ℤ) := by
    exact_mod_cast (Nat.length_toDigits_le_iff (by decide) hlength).mp le_rfl
  have hdigits' : (10 : ℚ) ^ ((Nat.toDigits 10 c).length - 1 : ℤ) ≤ c := by
    rw [show ((Nat.toDigits 10 c).length - 1 : ℤ) = ((Nat.toDigits 10 c).length - 1 : ℕ) by omega]
    exact_mod_cast pow_length_toDigits_le hc
  constructor
  · by_contra hlt
    have hsmall : (c : ℚ) * 10 ^ k < 10 ^ (-400 : ℤ) := by
      calc (c : ℚ) * 10 ^ k < 10 ^ ((Nat.toDigits 10 c).length : ℤ) * 10 ^ k := by gcongr
        _ = 10 ^ ((Nat.toDigits 10 c).length + k : ℤ) := (zpow_add₀ (by norm_num) _ _).symm
        _ ≤ 10 ^ (-400 : ℤ) := zpow_le_zpow_right₀ (by norm_num) (by omega)
    have hinv : (10 : ℚ) ^ (-400 : ℤ) ≤ 2 ^ (-1075 : ℤ) := by
      rw [zpow_neg, zpow_neg]
      exact inv_anti₀ (by positivity) two_pow_le_ten_pow
    exact absurd (hlow.trans_lt hsmall) hinv.not_gt
  · by_contra hlt
    have hlarge : (10 : ℚ) ^ (400 : ℤ) ≤ c * 10 ^ k := by
      calc (10 : ℚ) ^ (400 : ℤ) ≤ 10 ^ ((Nat.toDigits 10 c).length - 1 + k : ℤ) :=
            zpow_le_zpow_right₀ (by norm_num) (by omega)
        _ = 10 ^ ((Nat.toDigits 10 c).length - 1 : ℤ) * 10 ^ k := zpow_add₀ (by norm_num) _ _
        _ ≤ c * 10 ^ k := by gcongr
    have hle : (2 : ℚ) ^ (1024 : ℤ) ≤ 2 ^ (1075 : ℤ) :=
      zpow_le_zpow_right₀ (by norm_num) (by norm_num)
    exact absurd (hlarge.trans_lt hhigh) (hle.trans two_pow_le_ten_pow).not_gt

/-- A decimal number that reads back to a double is read as it. -/
theorem ReadsBack.nearest_eq (h : b.ReadsBack (c * 10 ^ k)) (hb : b.Canonical)
    (hpos : 0 < b.mantissa) (hs : b.negative = false) : Numeral.nearest c k = b.toFloat := by
  have hc : 0 < c := by
    obtain ⟨hlow, -⟩ := h.bounds hb hpos
    by_contra hzero
    rw [Nat.eq_zero_of_not_pos hzero, Nat.cast_zero, zero_mul] at hlow
    exact absurd hlow (by norm_num)
  obtain ⟨hmin, hmax⟩ := h.size hb hpos hc
  have hlength : 0 < (Nat.toDigits 10 c).length := Nat.length_toDigits_pos
  have hlog := length_toDigits_le c
  have hread := h.ofScientific_eq hb hpos hs hc (by omega) (by omega)
  rw [Numeral.nearest, if_neg hc.ne']
  dsimp only
  rw [if_neg (by omega), if_neg (by omega)]
  split
  · next hk =>
      rw [← hread, decide_eq_true hk]
  · next hk =>
      rw [← hread, decide_eq_false hk]

/-- Whole numbers of at most 53 bits are read as what they are. -/
theorem nearest_ofWhole (hpos : 0 < n) (hlt : n < 2 ^ 53) :
    Numeral.nearest n 0 = (ofWhole n).toFloat := by
  have hbits := (ofWhole_bits hpos hlt).1
  have hread := readsBack_magnitude (b := ofWhole n) (by omega)
  rw [magnitude_ofWhole] at hread
  refine ReadsBack.nearest_eq ?_ (canonical_ofWhole hpos hlt) (by omega) rfl
  rwa [zpow_zero, mul_one]

end Binary

end SymbolicRegression
