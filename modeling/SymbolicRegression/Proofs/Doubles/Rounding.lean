import SymbolicRegression.Proofs.Doubles.Bits

/-!
# Rounding to doubles

A result of arithmetic is rounded from a mantissa that is cut off, with two more bits: the next one,
and whether anything follows that. These tell where the exact number lies between the mantissa and
the next one, and shifting the mantissa keeps them true. So the exact number decides what is rounded
to: a double is the rounding of every number that lies nearer to it than to its neighbours. Halfway
it is the one with the even mantissa, and below a power of two the neighbour is half as far away.
-/

namespace SymbolicRegression

open Float.Model (Format UnpackedFloat totalExponent)
open Float.Model.UnpackedFloat

namespace Rounding

/-! ## Mantissas with two more bits -/

/-- Where the number lies between the mantissa and the next one. -/
def Reads (em : ExtendedMantissa) (t : ℚ) : Prop :=
  match em.roundBit, em.stickyBit with
  | false, false => t = em.mantissa
  | false, true => em.mantissa < t ∧ t < em.mantissa + 1 / 2
  | true, false => t = em.mantissa + 1 / 2
  | true, true => em.mantissa + 1 / 2 < t ∧ t < em.mantissa + 1

variable {em : ExtendedMantissa} {t : ℚ} {m n : ℕ}

theorem reads_exact (m : ℕ) : Reads (.ofMantissaAndAccuracy m .exact) m := rfl

theorem Reads.bounds (h : Reads em t) : (em.mantissa : ℚ) ≤ t ∧ t < em.mantissa + 1 := by
  obtain ⟨m, roundBit, stickyBit⟩ := em
  cases roundBit with
  | false =>
      cases stickyBit with
      | false =>
          obtain rfl : t = m := h
          exact ⟨le_rfl, lt_add_one _⟩
      | true =>
          obtain ⟨hlow, hhigh⟩ : (m : ℚ) < t ∧ t < m + 1 / 2 := h
          exact ⟨hlow.le, by linarith⟩
  | true =>
      cases stickyBit with
      | false =>
          obtain rfl : t = m + 1 / 2 := h
          exact ⟨by linarith, by linarith⟩
      | true =>
          obtain ⟨hlow, hhigh⟩ : (m : ℚ) + 1 / 2 < t ∧ t < m + 1 := h
          exact ⟨by linarith, hhigh⟩

/-- The last bit of the mantissa becomes the next bit, and that one joins the rest. -/
theorem Reads.shiftRightOne (h : Reads em t) : Reads em.shiftRightOne (t / 2) := by
  obtain ⟨m, roundBit, stickyBit⟩ := em
  have hm : (m : ℚ) = 2 * (m / 2 : ℕ) + (m % 2 : ℕ) := by
    exact_mod_cast (Nat.div_add_mod m 2).symm
  have hone : ((1 : ℕ) != 0) = true := rfl
  rw [ExtendedMantissa.shiftRightOne]
  rcases Nat.mod_two_eq_zero_or_one m with hbit | hbit
  all_goals
    rw [hbit] at hm ⊢
    push_cast at hm
    cases roundBit <;> cases stickyBit
  -- the new next bit is the last one, and the rest is clear only if both bits were
  all_goals simp only [Reads, bne_self_eq_false, hone, Bool.or_false, Bool.or_true] at h ⊢
  · linarith
  · exact ⟨by linarith, by linarith⟩
  · exact ⟨by linarith, by linarith⟩
  · exact ⟨by linarith, by linarith⟩
  · linarith
  · exact ⟨by linarith, by linarith⟩
  · exact ⟨by linarith, by linarith⟩
  · exact ⟨by linarith, by linarith⟩

theorem Reads.shiftRight (h : Reads em t) (n : ℕ) : Reads (em >>> n) (t / 2 ^ n) := by
  induction n with
  | zero =>
      rw [pow_zero, div_one]
      exact h
  | succ n ih =>
      rw [pow_succ, ← div_div]
      exact ih.shiftRightOne

/-- The number is nearest to this integer, which is even if the number lies halfway. -/
structure IsNearest (t : ℚ) (n : ℕ) : Prop where
  lower : (n : ℚ) - 1 / 2 ≤ t
  upper : t ≤ n + 1 / 2
  odd : n % 2 = 1 → (n : ℚ) - 1 / 2 < t ∧ t < n + 1 / 2

theorem IsNearest.unique (hm : IsNearest t m) (hn : IsNearest t n) : m = n := by
  have hle : ∀ {m n : ℕ}, IsNearest t m → IsNearest t n → m ≤ n := by
    intro m n hm hn
    by_contra hlt
    have hstep : (n : ℚ) + 1 ≤ m := by exact_mod_cast Nat.lt_of_not_le hlt
    have hlow := hm.lower
    have hhigh := hn.upper
    -- the two are neighbours and the number is halfway between them, but one of them is odd
    have hnext : m = n + 1 := by
      have : (m : ℚ) < n + 2 := by linarith
      have : m < n + 2 := by exact_mod_cast this
      omega
    rcases Nat.mod_two_eq_zero_or_one n with heven | hodd
    · have hstrict := (hm.odd (by omega)).1
      linarith
    · have hstrict := (hn.odd hodd).2
      linarith
  exact le_antisymm (hle hm hn) (hle hn hm)

theorem Reads.isNearest (h : Reads em t) : IsNearest t em.roundedMantissa := by
  obtain ⟨m, roundBit, stickyBit⟩ := em
  cases roundBit with
  | false =>
      cases stickyBit with
      | false =>
          obtain rfl : t = m := h
          show IsNearest _ m
          exact ⟨by linarith, by linarith, fun _ => ⟨by linarith, by linarith⟩⟩
      | true =>
          obtain ⟨hlow, hhigh⟩ : (m : ℚ) < t ∧ t < m + 1 / 2 := h
          show IsNearest _ m
          exact ⟨by linarith, hhigh.le, fun _ => ⟨by linarith, hhigh⟩⟩
  | true =>
      cases stickyBit with
      | false =>
          obtain rfl : t = m + 1 / 2 := h
          show IsNearest _ (m + m % 2)
          rcases Nat.mod_two_eq_zero_or_one m with heven | hodd
          · rw [heven, add_zero]
            exact ⟨by linarith, le_rfl, fun hodd => by omega⟩
          · rw [hodd]
            exact ⟨by push_cast; linarith, by push_cast; linarith, fun h => by omega⟩
      | true =>
          obtain ⟨hlow, hhigh⟩ : (m : ℚ) + 1 / 2 < t ∧ t < m + 1 := h
          show IsNearest _ (m + 1)
          exact ⟨by push_cast; linarith, by push_cast; linarith,
            fun _ => ⟨by push_cast; linarith, by push_cast; linarith⟩⟩

/-! ## Shifting to the exponent of the result -/

/-- A number needs this exponent for its mantissa to have 53 bits, or less with the least one. -/
structure IsTarget (r : ℚ) (E : ℤ) : Prop where
  least : -1074 ≤ E
  upper : r < 2 ^ (53 + E)
  lower : E = -1074 ∨ 2 ^ (52 + E) ≤ r

/-- What a rounded mantissa stands for. One of 54 bits loses its last, which is clear. -/
def rounded (s : Sign) (n : ℕ) (E : ℤ) : UnpackedFloat :=
  if h : n = 0 then .zero s
  else if n < 2 ^ 53 then .finite s n E (Nat.pos_of_ne_zero h)
  else .finite s (2 ^ 52) (E + 1) (by decide)

variable {accuracy : Accuracy} {e E : ℤ} {r : ℚ}

/-- The integer nearest to 53 bits has 53 bits. -/
theorem IsNearest.le_of_bits {n : ℕ} (hn : IsNearest (r / 2 ^ E) n)
    (hbits : 2 ^ (52 + E) ≤ r) : 2 ^ 52 ≤ n := by
  have hupper := hn.upper
  rw [zpow_add₀ (by norm_num), ← le_div_iff₀ (by positivity)] at hbits
  have hlt : ((2 ^ 52 : ℕ) : ℚ) < (n + 1 : ℕ) := by
    push_cast
    norm_num at hbits ⊢
    linarith
  exact Nat.lt_succ_iff.mp (Nat.cast_lt.mp hlt)

theorem targetExponent_eq (m : ℕ) (e : ℤ) :
    Format.binary64.targetExponent (totalExponent m e) =
      max ((m.log2 : ℤ) + 1 + e - 53) (-1074) :=
  rfl

theorem shiftToTargetExponent_eq (he : e ≤ E)
    (hE : max e (max ((m.log2 : ℤ) + 1 + e - 53) (-1074)) = E) :
    shiftToTargetExponent Format.binary64 m e accuracy =
      (ExtendedMantissa.ofMantissaAndAccuracy m accuracy >>> (E - e).toNat, E) := by
  have hshift : (max ((m.log2 : ℤ) + 1 + e - 53) (-1074) - e).toNat = (E - e).toNat := by omega
  show shiftToExponent m e accuracy (Format.binary64.targetExponent (totalExponent m e)) = _
  rw [targetExponent_eq, shiftToExponent, hshift]
  exact Prod.ext rfl (by dsimp only; omega)

/-- After the shift, at most 53 bits stay as they are, and a 54th is shifted out. -/
theorem shiftToTargetExponent_rounded (s : Sign) (hE : -1074 ≤ E) (hn : n ≤ 2 ^ 53) :
    (if h : (shiftToTargetExponent Format.binary64 n E .exact).1.mantissa = 0 then
        UnpackedFloat.zero s
      else .finite s (shiftToTargetExponent Format.binary64 n E .exact).1.mantissa
        (shiftToTargetExponent Format.binary64 n E .exact).2 (Nat.pos_of_ne_zero h)) =
      rounded s n E := by
  rcases Nat.lt_or_eq_of_le hn with hlt | rfl
  · have hlog : n.log2 ≤ 52 := by
      by_cases hzero : n = 0
      · rw [hzero]
        decide
      · exact Nat.lt_succ_iff.mp ((Nat.log2_lt hzero).mpr hlt)
    rw [shiftToTargetExponent_eq le_rfl (by omega), Int.sub_self, rounded]
    simp only [if_pos hlt]
    rfl
  · have hlog : (2 ^ 53 : ℕ).log2 = 53 := Nat.log2_two_pow
    rw [shiftToTargetExponent_eq (E := E + 1) (by omega) (by omega),
      show (E + 1 - E).toNat = 1 by omega]
    rfl

theorem IsTarget.exponent_eq (hE : IsTarget r E) (he : e ≤ E) (hlow : (m : ℚ) ≤ r / 2 ^ e)
    (hhigh : r / 2 ^ e < m + 1) : max e (max ((m.log2 : ℤ) + 1 + e - 53) (-1074)) = E := by
  have hpos : (0 : ℚ) < 2 ^ e := by positivity
  rw [le_div_iff₀ hpos] at hlow
  rw [div_lt_iff₀ hpos] at hhigh
  have hleast := hE.least
  by_cases hzero : m = 0
  · subst hzero
    rcases hE.lower with h | h
    · rw [show (0 : ℕ).log2 = 0 from rfl]
      omega
    · have hle : (2 : ℚ) ^ e ≤ 2 ^ (52 + E) := zpow_le_zpow_right₀ (by norm_num) (by omega)
      simp at hhigh
      linarith
  · have hbits : (2 : ℚ) ^ (m.log2 : ℤ) ≤ m := by
      exact_mod_cast Nat.log2_self_le hzero
    have hbits' : (m : ℚ) + 1 ≤ 2 ^ ((m.log2 : ℤ) + 1) := by
      exact_mod_cast Nat.lt_log2_self
    -- the number has as many bits as its mantissa
    have hlower : (2 : ℚ) ^ ((m.log2 : ℤ) + e) ≤ r := by
      rw [zpow_add₀ (by norm_num)]
      exact (mul_le_mul_of_nonneg_right hbits hpos.le).trans hlow
    have hupper : r < 2 ^ ((m.log2 : ℤ) + 1 + e) := by
      rw [zpow_add₀ (by norm_num)]
      exact hhigh.trans_le (mul_le_mul_of_nonneg_right hbits' hpos.le)
    have hle : (m.log2 : ℤ) + e < 53 + E :=
      (zpow_lt_zpow_iff_right₀ (by norm_num)).mp (hlower.trans_lt hE.upper)
    rcases hE.lower with h | h
    · omega
    · have hge : 52 + E < (m.log2 : ℤ) + 1 + e :=
        (zpow_lt_zpow_iff_right₀ (by norm_num)).mp (h.trans_lt hupper)
      omega

/-- A number is rounded to the integer that is nearest on the grid of its exponent. -/
theorem roundWithAccuracy_eq (s : Sign)
    (hr : Reads (.ofMantissaAndAccuracy m accuracy) (r / 2 ^ e)) (hE : IsTarget r E)
    (he : e ≤ E) : ∃ n ≤ 2 ^ 53, IsNearest (r / 2 ^ E) n ∧
      roundWithAccuracy Format.binary64 s m e accuracy = rounded s n E := by
  have hmantissa : (ExtendedMantissa.ofMantissaAndAccuracy m accuracy).mantissa = m := by
    rcases accuracy with _ | (_ | _ | _) <;> rfl
  obtain ⟨hlow, hhigh⟩ := hr.bounds
  rw [hmantissa] at hlow hhigh
  have hshift := hr.shiftRight (E - e).toNat
  have hpow : (2 : ℚ) ^ e * 2 ^ (E - e).toNat = 2 ^ E := by
    rw [← zpow_natCast, ← zpow_add₀ (by norm_num)]
    congr 1
    omega
  rw [div_div, hpow] at hshift
  have hnearest := hshift.isNearest
  have hbits : (ExtendedMantissa.ofMantissaAndAccuracy m accuracy >>>
      (E - e).toNat).roundedMantissa ≤ 2 ^ 53 := by
    have hlt : r / 2 ^ E < 2 ^ 53 := by
      rw [div_lt_iff₀ (by positivity), ← zpow_natCast, ← zpow_add₀ (by norm_num)]
      exact hE.upper
    have hle := hnearest.lower
    rw [← Nat.lt_succ_iff, ← Nat.cast_lt (α := ℚ)]
    push_cast
    linarith
  refine ⟨_, hbits, hnearest, ?_⟩
  rw [roundWithAccuracy, shiftToTargetExponent_eq he (hE.exponent_eq he hlow hhigh)]
  exact shiftToTargetExponent_rounded s hE.least hbits

/-- Every number below the range that doubles leave has such an exponent. -/
theorem exists_isTarget (hpos : 0 < r) (hlt : r < 2 ^ (1023 : ℤ)) :
    ∃ E ≤ 970, IsTarget r E := by
  have hlow : (2 : ℚ) ^ Int.log 2 r ≤ r := by exact_mod_cast Int.zpow_log_le_self Nat.one_lt_two hpos
  have hhigh : r < (2 : ℚ) ^ (Int.log 2 r + 1) := by
    exact_mod_cast Int.lt_zpow_succ_log_self Nat.one_lt_two r
  have hlog : Int.log 2 r < 1023 :=
    (zpow_lt_zpow_iff_right₀ (by norm_num)).mp (hlow.trans_lt hlt)
  refine ⟨max (Int.log 2 r - 52) (-1074), by omega, le_max_right _ _, ?_, ?_⟩
  · exact hhigh.trans_le (zpow_le_zpow_right₀ (by norm_num) (by omega))
  · rcases le_total (Int.log 2 r - 52) (-1074) with h | h
    · exact .inl (max_eq_right h)
    · refine .inr (le_trans ?_ hlow)
      exact zpow_le_zpow_right₀ (by norm_num) (by omega)

end Rounding

/-! ## The numbers that are rounded to a double -/

namespace Binary

open Rounding

/-- The quarters of a unit down to halfway to the next smaller double. -/
def below (b : Binary) : ℕ :=
  if b.mantissa = 2 ^ 52 ∧ -1074 < b.exponent then 1 else 2

/-- The number lies between the middles to the neighbours of the magnitude. The middles themselves
belong to the double of even mantissa. -/
structure ReadsBack (b : Binary) (r : ℚ) : Prop where
  lower : ((4 * b.mantissa - b.below : ℕ) : ℚ) * 2 ^ (b.exponent - 2) ≤ r
  upper : r ≤ ((4 * b.mantissa + 2 : ℕ) : ℚ) * 2 ^ (b.exponent - 2)
  odd : b.mantissa % 2 = 1 →
    ((4 * b.mantissa - b.below : ℕ) : ℚ) * 2 ^ (b.exponent - 2) < r ∧
      r < ((4 * b.mantissa + 2 : ℕ) : ℚ) * 2 ^ (b.exponent - 2)

variable {b : Binary} {r : ℚ}

theorem unpacked_eq_rounded (hlt : b.mantissa < 2 ^ 53) :
    b.unpacked = rounded (Bits.signOf b.negative) b.mantissa b.exponent := by
  rw [unpacked, rounded]
  simp only [if_pos hlt]

theorem canonical_of_bits {m : ℕ} {e : ℤ} (negative : Bool) (hlow : 2 ^ 52 ≤ m)
    (hhigh : m < 2 ^ 53) (hmin : -1074 ≤ e) (hmax : e ≤ 971) : Canonical ⟨negative, m, e⟩ :=
  .inr ⟨hlow, hhigh, hmin, hmax⟩

theorem canonical_of_lt {m : ℕ} (negative : Bool) (hlt : m < 2 ^ 52) :
    Canonical ⟨negative, m, -1074⟩ :=
  .inl ⟨hlt, rfl⟩

/-- What is rounded in range is a double. -/
theorem exists_canonical_rounded {E : ℤ} {n : ℕ} (negative : Bool) (hE : IsTarget r E)
    (hmax : E ≤ 970) (hn : IsNearest (r / 2 ^ E) n) (hle : n ≤ 2 ^ 53) :
    ∃ b : Binary, b.Canonical ∧ rounded (Bits.signOf negative) n E = b.unpacked := by
  have hleast := hE.least
  rcases Nat.lt_or_eq_of_le hle with hlt | rfl
  · rcases Nat.eq_zero_or_pos n with rfl | hpos
    · exact ⟨⟨negative, 0, -1074⟩, canonical_of_lt negative (by decide), rfl⟩
    · refine ⟨⟨negative, n, E⟩, ?_, (unpacked_eq_rounded (b := ⟨negative, n, E⟩) hlt).symm⟩
      rcases hE.lower with hbottom | hbits
      · rcases Nat.lt_or_ge n (2 ^ 52) with hsmall | hlarge
        · rw [hbottom]
          exact canonical_of_lt negative hsmall
        · exact canonical_of_bits negative hlarge hlt hleast (by omega)
      · exact canonical_of_bits negative (hn.le_of_bits hbits) hlt hleast (by omega)
  · refine ⟨⟨negative, 2 ^ 52, E + 1⟩, ?_, rfl⟩
    exact canonical_of_bits negative (by decide) (by decide) (by omega) (by omega)

theorem Canonical.lt (h : b.Canonical) : b.mantissa < 2 ^ 53 := by
  rcases h with ⟨h, -⟩ | ⟨-, h, -⟩
  · omega
  · exact h

theorem Canonical.le (h : b.Canonical) : -1074 ≤ b.exponent := by
  rcases h with ⟨-, h⟩ | ⟨-, -, h, -⟩
  · omega
  · exact h

theorem Canonical.exponent_le (h : b.Canonical) : b.exponent ≤ 971 := by
  rcases h with ⟨-, h⟩ | ⟨-, -, -, h⟩
  · omega
  · exact h

theorem below_le (b : Binary) : b.below ≤ 2 := by
  rw [below]
  split <;> omega

theorem readsBack_of_lt
    (hlower : ((4 * b.mantissa - b.below : ℕ) : ℚ) * 2 ^ (b.exponent - 2) < r)
    (hupper : r < ((4 * b.mantissa + 2 : ℕ) : ℚ) * 2 ^ (b.exponent - 2)) : b.ReadsBack r :=
  ⟨hlower.le, hupper.le, fun _ => ⟨hlower, hupper⟩⟩

/-- In units of the exponent the number is nearest to the mantissa. -/
theorem ReadsBack.isNearest (h : b.ReadsBack r) (hpos : 0 < b.mantissa) :
    IsNearest (r / 2 ^ b.exponent) b.mantissa := by
  have hunit : (2 : ℚ) ^ b.exponent = 4 * 2 ^ (b.exponent - 2) := by
    rw [show b.exponent = 2 + (b.exponent - 2) by omega, zpow_add₀ (by norm_num)]
    norm_num
  have hquarter : (0 : ℚ) < 2 ^ (b.exponent - 2) := by positivity
  have hbelow : (b.below : ℚ) * 2 ^ (b.exponent - 2) ≤ 2 * 2 ^ (b.exponent - 2) :=
    mul_le_mul_of_nonneg_right (by exact_mod_cast b.below_le) hquarter.le
  obtain ⟨hlower, hupper, hodd⟩ := h
  rw [Nat.cast_sub (by have := b.below_le; omega)] at hlower hodd
  push_cast at hlower hupper hodd
  rw [hunit]
  refine ⟨?_, ?_, fun h => ⟨?_, ?_⟩⟩
  · rw [le_div_iff₀ (by positivity)]
    linarith
  · rw [div_le_iff₀ (by positivity)]
    linarith
  · rw [lt_div_iff₀ (by positivity)]
    linarith [(hodd h).1]
  · rw [div_lt_iff₀ (by positivity)]
    linarith [(hodd h).2]

theorem ReadsBack.lt (h : b.ReadsBack r) (hb : b.Canonical) (hpos : 0 < b.mantissa) :
    r < 2 ^ (53 + b.exponent) := by
  have hupper := (h.isNearest hpos).upper
  have hmantissa : (b.mantissa : ℚ) + 1 ≤ 2 ^ 53 := by exact_mod_cast hb.lt
  rw [zpow_add₀ (by norm_num), ← div_lt_iff₀ (by positivity)]
  exact hupper.trans_lt (by norm_num at hmantissa ⊢; linarith)

/-- A number below the range of the mantissas is just below a power of two. In units of the next
smaller exponent it is nearest to the power. -/
theorem ReadsBack.isNearest_of_lt (h : b.ReadsBack r) (hb : b.Canonical)
    (hlt : r < 2 ^ (52 + b.exponent)) (hleast : -1074 < b.exponent) :
    b.mantissa = 2 ^ 52 ∧ IsNearest (r / 2 ^ (b.exponent - 1)) (2 ^ 53) := by
  have hhalf : (2 : ℚ) ^ (b.exponent - 1) = 2 * 2 ^ (b.exponent - 2) := by
    rw [show b.exponent - 1 = 1 + (b.exponent - 2) by omega, zpow_add₀ (by norm_num), zpow_one]
  have hbits : (2 : ℚ) ^ (52 + b.exponent) = (2 ^ 54 : ℕ) * 2 ^ (b.exponent - 2) := by
    rw [show 52 + b.exponent = 54 + (b.exponent - 2) by omega, zpow_add₀ (by norm_num)]
    norm_num
  have hquarter : (0 : ℚ) < 2 ^ (b.exponent - 2) := by positivity
  rw [hbits] at hlt
  have hnormal : 2 ^ 52 ≤ b.mantissa := by
    rcases hb with ⟨-, h⟩ | ⟨h, -⟩
    · omega
    · exact h
  have hmantissa : b.mantissa = 2 ^ 52 := by
    have hquarters := lt_of_mul_lt_mul_right (h.lower.trans_lt hlt) hquarter.le
    rw [Nat.cast_lt] at hquarters
    have := b.below_le
    omega
  have hlower := h.lower
  rw [show b.below = 1 from if_pos ⟨hmantissa, hleast⟩, hmantissa] at hlower
  norm_num at hlower hlt
  refine ⟨hmantissa, ?_, ?_, fun h => absurd h (by decide)⟩
  · rw [hhalf, le_div_iff₀ (by positivity)]
    norm_num
    linarith
  · rw [hhalf, div_le_iff₀ (by positivity)]
    norm_num
    linarith

/-- A number that reads back is rounded to the double: to its mantissa, or just below a power of two
on a finer grid, up to the power. -/
theorem ReadsBack.exists_isTarget (h : b.ReadsBack r) (hb : b.Canonical) (hpos : 0 < b.mantissa) :
    ∃ E, IsTarget r E ∧
      ∀ n, IsNearest (r / 2 ^ E) n → rounded (Bits.signOf b.negative) n E = b.unpacked := by
  by_cases hfine : r < 2 ^ (52 + b.exponent) ∧ -1074 < b.exponent
  · obtain ⟨hlt, hleast⟩ := hfine
    obtain ⟨hmantissa, hcarry⟩ := h.isNearest_of_lt hb hlt hleast
    refine ⟨b.exponent - 1, ⟨by omega, ?_, .inr ?_⟩, fun n hn => ?_⟩
    · rw [show 53 + (b.exponent - 1) = 52 + b.exponent by omega]
      exact hlt
    · have hlow := hcarry.lower
      rw [zpow_add₀ (by norm_num), ← le_div_iff₀ (by positivity)]
      exact le_trans (by norm_num) hlow
    · rw [← hcarry.unique hn, unpacked_eq_rounded hb.lt, hmantissa]
      show UnpackedFloat.finite _ (2 ^ 52) (b.exponent - 1 + 1) _ =
        .finite _ (2 ^ 52) b.exponent _
      rw [UnpackedFloat.finite.injEq]
      exact ⟨rfl, rfl, by omega⟩
  · refine ⟨b.exponent, ⟨hb.le, h.lt hb hpos, ?_⟩, fun n hn => ?_⟩
    · by_contra hno
      push Not at hno
      exact hfine ⟨hno.2, lt_of_le_of_ne hb.le (Ne.symm hno.1)⟩
    · rw [← (h.isNearest hpos).unique hn, unpacked_eq_rounded hb.lt]

/-- Rounding a number with enough bits gives the double that it reads back to. -/
theorem ReadsBack.roundWithAccuracy_eq (h : b.ReadsBack r) (hb : b.Canonical)
    (hpos : 0 < b.mantissa) {m : ℕ} {e : ℤ} {accuracy : Accuracy}
    (hr : Reads (.ofMantissaAndAccuracy m accuracy) (r / 2 ^ e))
    (he : ∀ E, IsTarget r E → e ≤ E) :
    roundWithAccuracy Format.binary64 (Bits.signOf b.negative) m e accuracy = b.unpacked := by
  obtain ⟨E, hE, hrounded⟩ := h.exists_isTarget hb hpos
  obtain ⟨n, -, hn, hround⟩ :=
    Rounding.roundWithAccuracy_eq (Bits.signOf b.negative) hr hE (he E hE)
  rw [hround, hrounded n hn]

end Binary

end SymbolicRegression
