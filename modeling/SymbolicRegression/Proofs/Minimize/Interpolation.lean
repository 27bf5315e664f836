import Mathlib.Algebra.Order.Field.Rat
import Mathlib.Algebra.Polynomial.Degree.SmallDegree
import Mathlib.Algebra.Polynomial.Derivative
import Mathlib.Data.Rat.Sqrt
import Mathlib.Tactic.FieldSimp
import Mathlib.Tactic.Linarith
import Mathlib.Tactic.LinearCombination
import Mathlib.Tactic.NormNum
import Mathlib.Tactic.Positivity
import Mathlib.Tactic.Ring
import SymbolicRegression.Minimize.LineSearch
import SymbolicRegression.Proofs.Minimize.ExactNumbers

/-!
# The steps of a line search minimize what they interpolate

A line search shortens its step to the minimiser of a parabola, and later of a cubic. Both have the
known value and slope at zero, and the known values at one or two trials. Over exact numbers the
formulas give what they should. The parabola is the only one through its trial, and completing the
square shows that its value is least at the step. The coefficients of the cubic solve two linear
equations, one for each trial. A cubic has up to two stationary points, a maximum and a minimum; the
second derivative at the step is twice the square root, so the step is the minimum whichever sign the
leading coefficient has.
-/

open Polynomial (C X)
open scoped Polynomial

namespace SymbolicRegression

/-! ## Parabolas and cubics -/

/-- The polynomial has that value and that slope at zero, and that value at the trial. -/
structure Interpolates {K : Type} [Field K] (p : K[X]) (phi0 slope alpha phi : K) : Prop where
  value_zero : p.eval 0 = phi0
  slope_zero : p.derivative.eval 0 = slope
  value : p.eval alpha = phi

namespace LineSearch

variable {K : Type} [Field K] {phi0 slope b a alpha phi t : K}

/-- The cubic with that value and that slope at zero. -/
noncomputable def cubic (phi0 slope b a : K) : K[X] :=
  C a * X ^ 3 + C b * X ^ 2 + C slope * X + C phi0

theorem eval_cubic : (cubic phi0 slope b a).eval t = a * t ^ 3 + b * t ^ 2 + slope * t + phi0 := by
  simp [cubic]

theorem eval_derivative_cubic :
    (cubic phi0 slope b a).derivative.eval t = 3 * a * t ^ 2 + 2 * b * t + slope := by
  simp [cubic]
  ring

theorem eval_derivative_derivative_cubic :
    (cubic phi0 slope b a).derivative.derivative.eval t = 6 * a * t + 2 * b := by
  simp [cubic]
  ring

theorem interpolates_cubic_iff :
    Interpolates (cubic phi0 slope b a) phi0 slope alpha phi ↔
      a * alpha ^ 3 + b * alpha ^ 2 + slope * alpha + phi0 = phi := by
  constructor
  · intro h
    rw [← eval_cubic]
    exact h.value
  · intro h
    refine ⟨?_, ?_, ?_⟩
    · rw [eval_cubic]
      ring
    · rw [eval_derivative_cubic]
      ring
    · rw [eval_cubic, h]

/-- A polynomial of degree two at most is the cubic without a cubic part that has its value and its
slope at zero. -/
theorem eq_cubic_of_degree_le_two {p : K[X]} (h : p.degree ≤ 2) :
    p = cubic (p.eval 0) (p.derivative.eval 0) (p.coeff 2) 0 := by
  have hsum : p = C (p.coeff 2) * X ^ 2 + C (p.coeff 1) * X + C (p.coeff 0) := by
    have hnat : p.natDegree < 3 := Nat.lt_succ_of_le (Polynomial.natDegree_le_of_degree_le h)
    conv_lhs => rw [p.as_sum_range_C_mul_X_pow' hnat]
    rw [Finset.sum_range_succ, Finset.sum_range_succ, Finset.sum_range_one]
    ring
  have hvalue : p.eval 0 = p.coeff 0 := p.coeff_zero_eq_eval_zero.symm
  have hslope : p.derivative.eval 0 = p.coeff 1 := by
    rw [← Polynomial.coeff_zero_eq_eval_zero, Polynomial.coeff_derivative]
    simp
  rw [hvalue, hslope, cubic, Polynomial.C_0, zero_mul, zero_add]
  exact hsum

/-- There is one parabola through a trial. -/
theorem isParabola_iff (halpha : alpha ≠ 0) (p : K[X]) :
    p.degree ≤ 2 ∧ Interpolates p phi0 slope alpha phi ↔
      p = cubic phi0 slope ((phi - phi0 - slope * alpha) / alpha ^ 2) 0 := by
  constructor
  · rintro ⟨hdegree, hp⟩
    have hcubic := eq_cubic_of_degree_le_two hdegree
    rw [hp.value_zero, hp.slope_zero] at hcubic
    have hvalue := hp.value
    rw [hcubic, eval_cubic] at hvalue
    rw [hcubic]
    congr 1
    rw [eq_div_iff (pow_ne_zero 2 halpha)]
    linear_combination hvalue
  · rintro rfl
    refine ⟨?_, interpolates_cubic_iff.mpr ?_⟩
    · rw [cubic, Polynomial.C_0, zero_mul, zero_add]
      exact Polynomial.degree_quadratic_le
    · field_simp
      ring

/-! ## The formulas -/

section Formulas

open Exact (of)

variable [LinearOrder K] (sqrt : K → K) {alpha₁ phi₁ alpha₂ phi₂ : K}

theorem powNat_three_of (x : K) : Scalar.powNat (of x : Exact K sqrt) 3 = of (x ^ 3) := by
  have hcube : Scalar.powNat (of x : Exact K sqrt) 3 = of (1 * x * (x * x)) := by
    rw [Scalar.powNat, Scalar.powNatFrom, Scalar.powNatFrom, Exact.one_eq]
    rfl
  rw [hcube]
  congr 1
  ring

/-- Where the cubic has a cubic part and stationary points, the step is the root with the positive
sign. -/
theorem cubicStep_of {flatness : K}
    (hcoefficients : cubicCoefficients (of alpha₁ : Exact K sqrt) (of phi₁) (of alpha₂) (of phi₂)
      (of phi0) (of slope) = some (of a, of b))
    (hflatness : flatness < |a|) (hdiscriminant : 0 ≤ b * b - 3 * a * slope) :
    cubicStep (of flatness : Exact K sqrt) (of alpha₁) (of phi₁) (of alpha₂) (of phi₂) (of phi0)
      (of slope) = some (of ((-b + sqrt (b * b - 3 * a * slope)) / (3 * a))) := by
  have hmax : Scalar.max (of (b * b - 3 * a * slope) : Exact K sqrt) Scalar.zero =
      of (b * b - 3 * a * slope) := by
    rw [Exact.zero_eq]
    show (if decide (b * b - 3 * a * slope < 0) = true then _ else _) = _
    rw [decide_eq_false hdiscriminant.not_gt]
    rfl
  rw [cubicStep, hcoefficients, Exact.three_eq]
  show (if decide (|a| ≤ flatness) = true then _ else Scalar.finite? ((-of b +
    Scalar.sqrt (Scalar.max (of (b * b - 3 * a * slope) : Exact K sqrt) Scalar.zero)) /
      (of 3 * of a))) = _
  rw [decide_eq_false hflatness.not_ge, hmax]
  rfl

end Formulas

/-! ## Minimisers -/

section Ordered

open Exact (of)

variable [LinearOrder K] [IsStrictOrderedRing K]

/-- Around its lowest point a parabola is a square with a positive coefficient. -/
theorem eval_cubic_lt (hb : 0 < b) (ht : t ≠ -slope / (2 * b)) :
    (cubic phi0 slope b 0).eval (-slope / (2 * b)) < (cubic phi0 slope b 0).eval t := by
  have hsquare : (cubic phi0 slope b 0).eval t =
      (cubic phi0 slope b 0).eval (-slope / (2 * b)) + b * (t - -slope / (2 * b)) ^ 2 := by
    rw [eval_cubic, eval_cubic]
    field_simp
    ring
  have hpos : 0 < b * (t - -slope / (2 * b)) ^ 2 := by
    have hne : t - -slope / (2 * b) ≠ 0 := sub_ne_zero.mpr ht
    positivity
  rw [hsquare]
  exact lt_add_of_pos_right _ hpos

/-- The root with the positive sign is a stationary point of a cubic, and no maximum. -/
theorem isStationary_root (ha : a ≠ 0) {r : K} (hr : 0 ≤ r) (hroot : r * r = b * b - 3 * a * slope) :
    (cubic phi0 slope b a).derivative.eval ((-b + r) / (3 * a)) = 0 ∧
      0 ≤ (cubic phi0 slope b a).derivative.derivative.eval ((-b + r) / (3 * a)) := by
  constructor
  · rw [eval_derivative_cubic]
    field_simp
    linear_combination hroot
  · have hsecond :
        (cubic phi0 slope b a).derivative.derivative.eval ((-b + r) / (3 * a)) = 2 * r := by
      rw [eval_derivative_derivative_cubic]
      field_simp
      ring
    rw [hsecond]
    positivity

theorem quadraticStep_of (sqrt : K → K) (h : phi0 + slope * alpha < phi) :
    quadraticStep (of alpha : Exact K sqrt) (of phi) (of phi0) (of slope) =
      some (of (-(slope * alpha * alpha) / (2 * (phi - phi0 - slope * alpha)))) := by
  have hpos : 0 < phi - phi0 - slope * alpha := by linarith
  have hne : (2 : K) * (phi - phi0 - slope * alpha) ≠ 0 := by positivity
  rw [quadraticStep, Exact.two_eq, Exact.zero_eq]
  show (if (!true || decide ((2 : K) * (phi - phi0 - slope * alpha) = 0)) = true then none
    else _) = _
  rw [decide_eq_false hne]
  rfl

/-- The two equations that say where the cubic passes have a solution, which is what is computed. -/
theorem exists_cubicCoefficients_of (sqrt : K → K) {alpha₁ alpha₂ : K} (phi₁ phi₂ phi0 slope : K)
    (h₁ : alpha₁ ≠ 0) (h₂ : alpha₂ ≠ 0) (hne : alpha₁ ≠ alpha₂) :
    ∃ a b : K,
      cubicCoefficients (of alpha₁ : Exact K sqrt) (of phi₁) (of alpha₂) (of phi₂) (of phi0)
        (of slope) = some (of a, of b) ∧
      a * alpha₁ ^ 3 + b * alpha₁ ^ 2 + slope * alpha₁ + phi0 = phi₁ ∧
      a * alpha₂ ^ 3 + b * alpha₂ ^ 2 + slope * alpha₂ + phi0 = phi₂ := by
  have hdifference : alpha₂ - alpha₁ ≠ 0 := sub_ne_zero.mpr hne.symm
  have hdenominator : alpha₁ * alpha₁ * alpha₂ * alpha₂ * (alpha₂ - alpha₁) ≠ 0 :=
    mul_ne_zero (by positivity) hdifference
  refine ⟨(alpha₁ * alpha₁ * (phi₂ - phi0 - slope * alpha₂) -
        alpha₂ * alpha₂ * (phi₁ - phi0 - slope * alpha₁)) /
      (alpha₁ * alpha₁ * alpha₂ * alpha₂ * (alpha₂ - alpha₁)),
    (-alpha₁ ^ 3 * (phi₂ - phi0 - slope * alpha₂) +
        alpha₂ ^ 3 * (phi₁ - phi0 - slope * alpha₁)) /
      (alpha₁ * alpha₁ * alpha₂ * alpha₂ * (alpha₂ - alpha₁)), ?_, ?_, ?_⟩
  · rw [cubicCoefficients, powNat_three_of, powNat_three_of, Exact.zero_eq]
    show (if (!true || decide (alpha₁ * alpha₁ * alpha₂ * alpha₂ * (alpha₂ - alpha₁) = 0)) = true
      then none else _) = _
    rw [decide_eq_false hdenominator]
    rfl
  · field_simp
    ring
  · field_simp
    ring

/-- Over exact numbers, with a square root of the discriminant, both steps are what they are meant to
be. There is one parabola with the value and the slope at zero and the value at the trial, and where
the trial lies above the tangent its value is least at the quadratic step. The cubic passes through
both trials, and where it has a cubic part and stationary points the cubic step is one of these, with
a second derivative that is not negative. -/
theorem steps_minimize_interpolants (sqrt : K → K) :
    (∀ alpha phi phi0 slope : K, alpha ≠ 0 → phi0 + slope * alpha < phi →
      ∃ (p : K[X]) (m : K),
        (∀ q : K[X], q.degree ≤ 2 ∧ Interpolates q phi0 slope alpha phi ↔ q = p) ∧
        quadraticStep (of alpha : Exact K sqrt) (of phi) (of phi0) (of slope) = some (of m) ∧
        ∀ t, t ≠ m → p.eval m < p.eval t) ∧
    ∀ alpha₁ phi₁ alpha₂ phi₂ phi0 slope : K, alpha₁ ≠ 0 → alpha₂ ≠ 0 → alpha₁ ≠ alpha₂ →
      ∃ a b : K,
        cubicCoefficients (of alpha₁ : Exact K sqrt) (of phi₁) (of alpha₂) (of phi₂) (of phi0)
          (of slope) = some (of a, of b) ∧
        Interpolates (cubic phi0 slope b a) phi0 slope alpha₁ phi₁ ∧
        Interpolates (cubic phi0 slope b a) phi0 slope alpha₂ phi₂ ∧
        ∀ flatness : K, 0 ≤ flatness → flatness < |a| →
          let discriminant := b * b - 3 * a * slope
          0 ≤ discriminant → 0 ≤ sqrt discriminant →
          sqrt discriminant * sqrt discriminant = discriminant →
          ∃ m : K,
            cubicStep (of flatness : Exact K sqrt) (of alpha₁) (of phi₁) (of alpha₂) (of phi₂)
              (of phi0) (of slope) = some (of m) ∧
            (cubic phi0 slope b a).derivative.eval m = 0 ∧
            0 ≤ (cubic phi0 slope b a).derivative.derivative.eval m := by
  refine ⟨fun alpha phi phi0 slope halpha hphi => ?_,
    fun alpha₁ phi₁ alpha₂ phi₂ phi0 slope h₁ h₂ hne => ?_⟩
  · have hpos : 0 < phi - phi0 - slope * alpha := by linarith
    have hsquare : 0 < (phi - phi0 - slope * alpha) / alpha ^ 2 := by positivity
    have hstep : -(slope * alpha * alpha) / (2 * (phi - phi0 - slope * alpha)) =
        -slope / (2 * ((phi - phi0 - slope * alpha) / alpha ^ 2)) := by
      field_simp
    refine ⟨_, _, isParabola_iff halpha, quadraticStep_of sqrt hphi, fun t ht => ?_⟩
    rw [hstep] at ht ⊢
    exact eval_cubic_lt hsquare ht
  · obtain ⟨a, b, hcoefficients, hfirst, hsecond⟩ :=
      exists_cubicCoefficients_of sqrt phi₁ phi₂ phi0 slope h₁ h₂ hne
    refine ⟨a, b, hcoefficients, interpolates_cubic_iff.mpr hfirst,
      interpolates_cubic_iff.mpr hsecond, ?_⟩
    intro flatness hflatness hlead discriminant hdiscriminant hnonneg hroot
    have ha : a ≠ 0 := abs_pos.mp (hflatness.trans_lt hlead)
    exact ⟨_, cubicStep_of sqrt hcoefficients hlead hdiscriminant,
      isStationary_root ha hnonneg hroot⟩

end Ordered

/-- A parabola that is as high at the trial as at zero, and a cubic that falls in the end and has its
minimum before its maximum. -/
theorem steps_minimize_interpolants_rational :
    ((1 : ℚ) ≠ 0 ∧ (9 : ℚ) + -36 * 1 < 9 ∧
      quadraticStep (.of 1 : Exact ℚ Rat.sqrt) (.of 9) (.of 9) (.of (-36)) = some (.of (1 / 2)) ∧
      ∃ p : ℚ[X], (∀ q : ℚ[X], q.degree ≤ 2 ∧ Interpolates q 9 (-36) 1 9 ↔ q = p) ∧
        ∀ t, t ≠ 1 / 2 → p.eval (1 / 2) < p.eval t) ∧
    ((1 : ℚ) ≠ 0 ∧ (2 : ℚ) ≠ 0 ∧ (1 : ℚ) ≠ 2 ∧
      cubicCoefficients (.of 1 : Exact ℚ Rat.sqrt) (.of (-4)) (.of 2) (.of (-2)) (.of 0)
        (.of (-9)) = some (.of (-1), .of 6) ∧
      Interpolates (cubic (0 : ℚ) (-9) 6 (-1)) 0 (-9) 1 (-4) ∧
      Interpolates (cubic (0 : ℚ) (-9) 6 (-1)) 0 (-9) 2 (-2) ∧
      (0 : ℚ) ≤ 1 / 2 ^ 52 ∧ (1 : ℚ) / 2 ^ 52 < |-1| ∧ (0 : ℚ) ≤ 6 * 6 - 3 * -1 * -9 ∧
      0 ≤ Rat.sqrt (6 * 6 - 3 * -1 * -9) ∧
      Rat.sqrt (6 * 6 - 3 * -1 * -9) * Rat.sqrt (6 * 6 - 3 * -1 * -9) = 6 * 6 - 3 * -1 * -9 ∧
      cubicStep (.of (1 / 2 ^ 52) : Exact ℚ Rat.sqrt) (.of 1) (.of (-4)) (.of 2) (.of (-2)) (.of 0)
        (.of (-9)) = some (.of 1) ∧
      (cubic (0 : ℚ) (-9) 6 (-1)).derivative.eval 1 = 0 ∧
      0 ≤ (cubic (0 : ℚ) (-9) 6 (-1)).derivative.derivative.eval 1) := by
  have habove : (9 : ℚ) + -36 * 1 < 9 := by norm_num
  have hquadratic : quadraticStep (.of 1 : Exact ℚ Rat.sqrt) (.of 9) (.of 9) (.of (-36)) =
      some (.of (1 / 2)) := by
    decide +kernel
  have hcoefficients : cubicCoefficients (.of 1 : Exact ℚ Rat.sqrt) (.of (-4)) (.of 2) (.of (-2))
      (.of 0) (.of (-9)) = some (.of (-1), .of 6) := by
    decide +kernel
  have hcubic : cubicStep (.of (1 / 2 ^ 52) : Exact ℚ Rat.sqrt) (.of 1) (.of (-4)) (.of 2)
      (.of (-2)) (.of 0) (.of (-9)) = some (.of 1) := by
    decide +kernel
  have hroot : Rat.sqrt (6 * 6 - 3 * -1 * -9) = 3 := by decide +kernel
  have hnonneg : (0 : ℚ) ≤ Rat.sqrt (6 * 6 - 3 * -1 * -9) := by
    rw [hroot]
    norm_num
  have hsquare : Rat.sqrt (6 * 6 - 3 * -1 * -9) * Rat.sqrt (6 * 6 - 3 * -1 * -9) =
      6 * 6 - 3 * -1 * -9 := by
    rw [hroot]
    norm_num
  have hlead : (1 : ℚ) / 2 ^ 52 < |-1| := by norm_num
  obtain ⟨p, m, hp, hm, hleast⟩ :=
    (steps_minimize_interpolants Rat.sqrt).1 1 9 9 (-36) one_ne_zero habove
  obtain ⟨a, b, hab, hfirst, hsecond, hstep⟩ :=
    (steps_minimize_interpolants Rat.sqrt).2 1 (-4) 2 (-2) 0 (-9) one_ne_zero two_ne_zero
      (by norm_num)
  cases hquadratic.symm.trans hm
  cases hcoefficients.symm.trans hab
  obtain ⟨n, hn, hstationary⟩ := hstep (1 / 2 ^ 52) (by positivity) hlead (by norm_num) hnonneg
    hsquare
  cases hcubic.symm.trans hn
  exact ⟨⟨one_ne_zero, habove, hquadratic, p, hp, hleast⟩, one_ne_zero, two_ne_zero, by norm_num,
    hcoefficients, hfirst, hsecond, by positivity, hlead, by norm_num, hnonneg, hsquare, hcubic,
    hstationary⟩

end LineSearch

end SymbolicRegression
