import Mathlib.Algebra.Order.Round
import SymbolicRegression.Proofs.Datasets.Rows
import SymbolicRegression.Proofs.Doubles.Decimals

/-!
# Splitting after a shuffle

The rows of a shuffled split are the places of the data set in shuffled order, cut in two. A shuffle
only swaps places, so whatever indices it draws the two parts together are all the rows, each of
them once; this is `shuffle_perm`, and cutting a list in two loses nothing either.

How many rows are for training is computed with doubles: the product of the number of rows and the
fraction is rounded, a half upwards, and the integer part of the result is taken. Rounding works on
the mantissa and goes back through a double, so that it has to be shown that no digit is lost on the
way: below `2 ^ 53` whole numbers are doubles, and a double with a fraction is below that.
-/

namespace SymbolicRegression

/-! ## Rounding a double to an integer -/

namespace Binary

theorem roundDiv_up (a d : ℕ) :
    roundDiv .up a d = if 2 * (a % d) < d then a / d else a / d + 1 := by
  rw [roundDiv]
  split
  · rfl
  · split <;> rfl

/-- Half upwards, rounding is what the division with a remainder computes. -/
theorem round_div_eq_roundDiv (a : ℕ) {d : ℕ} (hd : 0 < d) :
    round ((a : ℚ) / d) = (roundDiv .up a d : ℕ) := by
  have hd' : (0 : ℚ) < d := by exact_mod_cast hd
  have hrest : ((a % d : ℕ) : ℚ) < d := by exact_mod_cast Nat.mod_lt _ hd
  have hrest' : (0 : ℚ) ≤ (a % d : ℕ) := Nat.cast_nonneg _
  have hparts : (a : ℚ) = d * (a / d : ℕ) + (a % d : ℕ) := by
    exact_mod_cast (Nat.div_add_mod a d).symm
  rw [round_eq, Int.floor_eq_iff, Int.cast_natCast, div_add_div _ _ hd'.ne' two_ne_zero,
    le_div_iff₀ (by positivity), div_lt_iff₀ (by positivity), hparts, roundDiv_up]
  split
  · next hlow =>
    have hlow' : 2 * ((a % d : ℕ) : ℚ) < d := by exact_mod_cast hlow
    constructor <;> linarith
  · next hhigh =>
    have hhigh' : (d : ℚ) ≤ 2 * ((a % d : ℕ) : ℚ) := by exact_mod_cast not_lt.1 hhigh
    rw [Nat.cast_add_one]
    constructor <;> linarith

variable {x : Float} {b : Binary}

/-- The powers of two are on the side where they are whole. -/
theorem magnitude_eq_div (b : Binary) :
    b.magnitude =
      (b.mantissa * 2 ^ b.exponent.toNat : ℕ) / (2 ^ (-b.exponent).toNat : ℕ) := by
  have hexponent : (2 : ℚ) ^ b.exponent =
      2 ^ (b.exponent.toNat : ℤ) / 2 ^ ((-b.exponent).toNat : ℤ) := by
    rw [← zpow_sub₀ two_ne_zero]
    congr 1
    omega
  rw [magnitude, hexponent, zpow_natCast, zpow_natCast]
  push_cast
  exact (mul_div_assoc _ _ _).symm

end Binary

namespace Number

open Binary (ofFloat? ofFloat?_eq_some)

variable {x : Float} {b : Binary}

theorem toNat_truncate (hx : ofFloat? x = some b) :
    (truncate x).toNat = if b.negative then 0 else ⌊b.magnitude⌋₊ := by
  rw [truncate, hx, b.magnitude_eq_div, Nat.floor_div_eq_div]
  dsimp only
  split
  · exact Int.toNat_of_nonpos (Int.neg_nonpos_of_nonneg (Int.natCast_nonneg _))
  · exact Int.toNat_natCast _

theorem round_nonpos {q : ℚ} (h : q ≤ 0) : round q ≤ 0 := by
  rw [round_eq, ← Int.lt_add_one_iff, Int.floor_lt]
  push_cast
  linarith

/-- A rounded number keeps its sign, and the magnitude of one that is not negative is the nearest
integer. -/
theorem ofFloat?_roundHalfAway (hx : ofFloat? x = some b) :
    ∃ b', ofFloat? (roundHalfAway x) = some b' ∧ b'.negative = b.negative ∧
      b'.magnitude = round b.magnitude := by
  rw [roundHalfAway_eq hx]
  split
  · next hexponent =>
    refine ⟨b, hx, rfl, ?_⟩
    rw [b.magnitude_eq_div, show (-b.exponent).toNat = 0 by omega, pow_zero, Nat.cast_one, div_one,
      round_natCast, Int.cast_natCast]
  · next hexponent =>
    have hmagnitude : b.magnitude = b.mantissa / (2 ^ b.exponent.natAbs : ℕ) := by
      rw [b.magnitude_eq_div, show b.exponent.toNat = 0 by omega, pow_zero, mul_one,
        show (-b.exponent).toNat = b.exponent.natAbs by omega]
    have hpow : 2 ≤ 2 ^ b.exponent.natAbs := Nat.le_self_pow (by omega) 2
    obtain ⟨b', hb', hsign, hvalue⟩ := Binary.exists_ofFloat?_ofNat
      (Binary.roundDiv_lt .up (ofFloat?_eq_some hx).1.lt hpow)
    rw [hmagnitude, Binary.round_div_eq_roundDiv _ (by omega), Int.cast_natCast, Binary.withWhole]
    cases hnegative : b.negative with
    | true =>
      refine ⟨b'.flip, (Binary.opposite_neg hb').trans (congrArg (Option.map Binary.flip) hb'), ?_,
        hvalue⟩
      rw [Binary.flip, hsign]
      rfl
    | false => exact ⟨b', hb', hsign, hvalue⟩

/-- Rounding a double and taking the integer part is rounding its value; below zero there is nothing
to count. -/
theorem toNat_truncate_roundHalfAway (x : Float) :
    (truncate (roundHalfAway x)).toNat = (round (Rational.ofDouble x)).toNat := by
  cases hx : ofFloat? x with
  | none => rw [roundHalfAway, hx, truncate, hx, Rational.ofDouble, hx, round_zero]
  | some b =>
    obtain ⟨b', hb', hsign, hvalue⟩ := ofFloat?_roundHalfAway hx
    have hmagnitude : (b.mantissa : ℚ) * 2 ^ b.exponent = b.magnitude := rfl
    rw [toNat_truncate hb', hsign, hvalue, ofDouble_eq hx, mul_assoc, hmagnitude]
    cases b.negative with
    | true =>
      have hnonpos : (-1 : ℚ) * b.magnitude ≤ 0 := by
        rw [Binary.magnitude, neg_one_mul, neg_nonpos]
        positivity
      exact (Int.toNat_of_nonpos (round_nonpos hnonpos)).symm
    | false =>
      simp only [Bool.false_eq_true, if_false, one_mul]
      rw [← Int.floor_toNat, Int.floor_intCast]

end Number

/-! ## The parts -/

namespace Dataset

variable {σ : Type} {d : Dataset} {fraction : Float} {index : Nat → σ → Nat × σ} {source : σ}

theorem trainingRows_eq (n : ℕ) (fraction : Float) :
    trainingRows n fraction =
      min (round (Rational.ofDouble (Float.ofNat n * fraction))).toNat n := by
  rw [trainingRows, Number.toNat_truncate_roundHalfAway]

theorem forall_mem_shuffle_lt (d : Dataset) (index : Nat → σ → Nat × σ) (source : σ) :
    ∀ i ∈ (shuffle index (List.range d.rowCount) source).1, i < d.rowCount :=
  fun _ h => List.mem_range.1 ((shuffle_perm index (List.range d.rowCount) source).mem_iff.1 h)

/-- The rows in the order in which a shuffle leaves them. -/
def shuffledRows (d : Dataset) (index : Nat → σ → Nat × σ) (source : σ) : List (Fin d.rowCount) :=
  (shuffle index (List.range d.rowCount) source).1.pmap Fin.mk
    (forall_mem_shuffle_lt d index source)

theorem map_val_shuffledRows :
    (d.shuffledRows index source).map Fin.val =
      (shuffle index (List.range d.rowCount) source).1 :=
  map_val_pmap _

theorem shuffledRows_perm :
    (d.shuffledRows index source).Perm (List.finRange d.rowCount) := by
  have h := shuffle_perm index (List.range d.rowCount) source
  rw [← map_val_shuffledRows, ← List.map_coe_finRange_eq_range] at h
  exact (List.map_perm_map_iff Fin.val_injective).1 h

theorem splitShuffled_eq (h : 0 < fraction ∧ fraction < 1) :
    d.splitShuffled fraction index source =
      (.ok (d.select ((d.shuffledRows index source).take (trainingRows d.rowCount fraction)),
        d.select ((d.shuffledRows index source).drop (trainingRows d.rowCount fraction))),
        (shuffle index (List.range d.rowCount) source).2) := by
  rw [splitShuffled, if_pos h]
  dsimp only
  rw [pickRows_eq_select (by rw [List.map_take, map_val_shuffledRows]),
    pickRows_eq_select (by rw [List.map_drop, map_val_shuffledRows])]

theorem not_lt_of_isNaN (h : fraction.isNaN = true) : ¬(0 < fraction ∧ fraction < 1) := by
  rintro ⟨hpos, -⟩
  have hdefined := (FloatOrder.lt_iff.1 hpos).1.2
  rw [h] at hdefined
  cases hdefined

/-- A fraction between zero and one cuts the shuffled rows of a data set in two: every row is in one
of the parts, once, and as many are for training as the fraction of their number, rounded. Any other
fraction is refused and the source of indices is left as it was. -/
theorem splitShuffled_parts (d : Dataset) (fraction : Float) (index : Nat → σ → Nat × σ)
    (source : σ) :
    (0 < fraction ∧ fraction < 1 →
      ∃ train test trainRows testRows,
        d.splitShuffled fraction index source =
          (.ok (train, test), (shuffle index (List.range d.rowCount) source).2) ∧
        d.Selects trainRows train ∧ d.Selects testRows test ∧
        (trainRows ++ testRows).map Fin.val = (shuffle index (List.range d.rowCount) source).1 ∧
        (trainRows ++ testRows).Perm (List.finRange d.rowCount) ∧
        train.rowCount =
          min (round (Rational.ofDouble (Float.ofNat d.rowCount * fraction))).toNat d.rowCount) ∧
    (fraction.isNaN = true ∨ ¬(0 < fraction ∧ fraction < 1) →
      d.splitShuffled fraction index source = (.error (.invalidFraction fraction), source)) := by
  constructor
  · intro h
    have train := selects_select d
      ((d.shuffledRows index source).take (trainingRows d.rowCount fraction))
    have test := selects_select d
      ((d.shuffledRows index source).drop (trainingRows d.rowCount fraction))
    refine ⟨_, _, _, _, splitShuffled_eq h, train, test, ?_, ?_, ?_⟩
    · rw [List.take_append_drop, map_val_shuffledRows]
    · rw [List.take_append_drop]
      exact shuffledRows_perm
    · rw [train.rowCount, List.length_take, shuffledRows_perm.length_eq, List.length_finRange,
        trainingRows_eq, min_assoc, min_self]
  · intro h
    have hrefused : ¬(0 < fraction ∧ fraction < 1) := h.elim not_lt_of_isNaN id
    rw [splitShuffled, if_neg hrefused]

theorem fiveSamples_splitShuffled :
    ((0 : Float) < 0.5 ∧ (0.5 : Float) < 1) ∧ (0 / 0 : Float).isNaN = true ∧
    (∃ train test trainRows testRows,
      fiveSamples.splitShuffled 0.5 (fun n s => (s % n, s + 1)) 7 = (.ok (train, test), 11) ∧
      fiveSamples.Selects trainRows train ∧ fiveSamples.Selects testRows test ∧
      (trainRows ++ testRows).Perm (List.finRange 5) ∧ train.rowCount = 3) ∧
    ∃ e, fiveSamples.splitShuffled (0 / 0) (fun n s => (s % n, s + 1)) 7 = (.error e, 7) := by
  have inside : (0 : Float) < 0.5 ∧ (0.5 : Float) < 1 := ⟨by decide, by decide⟩
  have undefined : (0 / 0 : Float).isNaN = true := by decide
  obtain ⟨train, test, trainRows, testRows, hok, htrain, htest, -, hperm, hcount⟩ :=
    (splitShuffled_parts fiveSamples 0.5 (fun n s => (s % n, s + 1)) 7).1 inside
  refine ⟨inside, undefined, ⟨train, test, trainRows, testRows, hok, htrain, htest, hperm, ?_⟩, _,
    (splitShuffled_parts fiveSamples (0 / 0) (fun n s => (s % n, s + 1)) 7).2 (.inl undefined)⟩
  rw [hcount, ← trainingRows_eq]
  decide +kernel

end Dataset

end SymbolicRegression
