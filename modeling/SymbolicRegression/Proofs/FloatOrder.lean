import Mathlib

/-!
# The order of doubles

Numbers that are not undefined are ordered by a rank: the sign, then the exponent, then the
mantissa, each read downwards for a negative number, with the infinities at both ends. A comparison
of two doubles is the comparison of their ranks where both are defined, and false where one is not.
So the order of doubles is transitive without a condition, and reflexive for defined numbers.
-/

namespace SymbolicRegression

namespace FloatOrder

open Float.Model (UnpackedFloat)

/-- Ranks are compared component by component, the first one first. -/
abbrev Rank := ℤ ×ₗ ℤ ×ₗ ℤ

/-- The place of an unpacked number in the order. No comparison asks for that of an undefined one. -/
def rankOf : UnpackedFloat → Rank
  | .notANumber => toLex (0, toLex (0, 0))
  | .zero _ => toLex (0, toLex (0, 0))
  | .infinity .negative => toLex (-2, toLex (0, 0))
  | .infinity .positive => toLex (2, toLex (0, 0))
  | .finite .negative m e _ => toLex (-1, toLex (-e, -m))
  | .finite .positive m e _ => toLex (1, toLex (e, m))

/-- The place of a double in the order. -/
def rank (x : Float) : Rank :=
  rankOf x.toModel.unpack

theorem compare_natCast (m n : ℕ) : compare (m : ℤ) (n : ℤ) = compare m n := by
  rw [← cmp_eq_compare, ← cmp_eq_compare]
  exact Nat.strictMono_cast.cmp_map_eq m n

theorem compare_neg (a b : ℤ) : compare (-a) (-b) = (compare a b).swap := by
  rw [← cmp_eq_compare, ← cmp_eq_compare, cmp_swap]
  exact StrictAnti.cmp_map_eq (fun _ _ => neg_lt_neg) a b

/-- Two defined numbers compare as their ranks. -/
theorem compare_eq_compare_rankOf {u v : UnpackedFloat} (hu : u.isNaN = false)
    (hv : v.isNaN = false) : u.compare v = some (compare (rankOf u) (rankOf v)) := by
  cases u with
  | notANumber => cases hu
  | infinity s =>
      cases v with
      | notANumber => cases hv
      | infinity s' => cases s <;> cases s' <;> rfl
      | zero s' => cases s <;> rfl
      | finite s' m e _ => cases s <;> cases s' <;> rfl
  | zero s =>
      cases v with
      | notANumber => cases hv
      | infinity s' => cases s' <;> rfl
      | zero s' => rfl
      | finite s' m e _ => cases s' <;> rfl
  | finite s m e _ =>
      cases v with
      | notANumber => cases hv
      | infinity s' => cases s <;> cases s' <;> rfl
      | zero s' => cases s <;> rfl
      | finite s' m' e' _ =>
          cases s with
          | negative =>
              cases s' with
              | negative =>
                  -- the ranks compare exponents and mantissas with their signs turned
                  show some ((compare e e').then (compare m m')).swap =
                    some ((compare (-e) (-e')).then (compare (-(m : ℤ)) (-(m' : ℤ))))
                  rw [compare_neg, compare_neg, compare_natCast, Ordering.swap_then]
              | positive => rfl
          | positive =>
              cases s' with
              | negative => rfl
              | positive =>
                  show some ((compare e e').then (compare m m')) =
                    some ((compare e e').then (compare (m : ℤ) (m' : ℤ)))
                  rw [compare_natCast]

/-- A comparison with an undefined number has no outcome. -/
theorem compare_eq_none {u v : UnpackedFloat} (h : u.isNaN = true ∨ v.isNaN = true) :
    u.compare v = none := by
  obtain h | h := h
  · cases u <;> cases h
    rfl
  · cases v <;> cases h
    cases u <;> rfl

/-! ## Doubles -/

variable {x y z : Float}

theorem compare_unpack (x y : Float) :
    x.toModel.unpack.compare y.toModel.unpack =
      if x.isNaN = false ∧ y.isNaN = false then some (compare (rank x) (rank y)) else none := by
  split
  case isTrue h => exact compare_eq_compare_rankOf h.1 h.2
  case isFalse h =>
    apply compare_eq_none
    rwa [not_and_or, Bool.not_eq_false, Bool.not_eq_false] at h

/-- A comparison holds between defined numbers only, and then as it does between their ranks. -/
theorem lt_iff : x < y ↔ (x.isNaN = false ∧ y.isNaN = false) ∧ rank x < rank y := by
  have hlt : x < y ↔ x.toModel.unpack.compare y.toModel.unpack = some .lt :=
    decide_eq_true_iff.trans beq_iff_eq
  rw [hlt, compare_unpack, Option.ite_none_right_eq_some, Option.some_inj, compare_lt_iff_lt]

theorem le_iff : x ≤ y ↔ (x.isNaN = false ∧ y.isNaN = false) ∧ rank x ≤ rank y := by
  have hle : x ≤ y ↔ (x.toModel.unpack.compare y.toModel.unpack).any (·.isLE) = true :=
    decide_eq_true_iff
  rw [hle, compare_unpack, ← compare_le_iff_le]
  split
  case isTrue h => simp only [h, true_and, Option.any_some, Ordering.isLE_iff_ne_gt]
  case isFalse h => simp only [h, false_and, Option.any_none, Bool.false_eq_true]

theorem beq_iff : (x == y) = true ↔ (x.isNaN = false ∧ y.isNaN = false) ∧ rank x = rank y := by
  have hbeq : (x == y) = true ↔ x.toModel.unpack.compare y.toModel.unpack = some .eq := by
    show (x.toModel.unpack.compare y.toModel.unpack == some .eq) = true ↔ _
    exact beq_iff_eq
  rw [hbeq, compare_unpack, Option.ite_none_right_eq_some, Option.some_inj, compare_eq_iff_eq]

theorem le_refl (h : x.isNaN = false) : x ≤ x :=
  le_iff.2 ⟨⟨h, h⟩, le_rfl⟩

theorem le_of_lt (h : x < y) : x ≤ y :=
  le_iff.2 ⟨(lt_iff.1 h).1, (lt_iff.1 h).2.le⟩

theorem lt_trans (h₁ : x < y) (h₂ : y < z) : x < z :=
  lt_iff.2 ⟨⟨(lt_iff.1 h₁).1.1, (lt_iff.1 h₂).1.2⟩, (lt_iff.1 h₁).2.trans (lt_iff.1 h₂).2⟩

theorem le_of_not_lt (hx : x.isNaN = false) (hy : y.isNaN = false) (h : ¬x < y) : y ≤ x :=
  le_iff.2 ⟨⟨hy, hx⟩, not_lt.1 fun hrank => h (lt_iff.2 ⟨⟨hx, hy⟩, hrank⟩)⟩

theorem le_trans (h₁ : x ≤ y) (h₂ : y ≤ z) : x ≤ z :=
  le_iff.2 ⟨⟨(le_iff.1 h₁).1.1, (le_iff.1 h₂).1.2⟩, (le_iff.1 h₁).2.trans (le_iff.1 h₂).2⟩

/-! ### Finite doubles -/

theorem isNaN_eq_false_of_isFinite (h : x.isFinite = true) : x.isNaN = false := by
  change x.toModel.unpack.isFinite = true at h
  show x.toModel.unpack.isNaN = false
  cases hu : x.toModel.unpack with
  | notANumber => rw [hu] at h; cases h
  | _ => rfl

theorem fst_rankOf_le_one {u : UnpackedFloat} (h : u.isFinite = true) :
    (ofLex (rankOf u)).1 ≤ 1 := by
  cases u with
  | notANumber => cases h
  | infinity s => cases h
  | zero s => exact zero_le_one
  | finite s m e _ =>
      cases s with
      | negative => exact neg_le_self zero_le_one
      | positive => exact le_rfl

/-- No finite number reaches infinity. -/
theorem not_infinity_le (h : x.isFinite = true) : ¬Float.ofBits 0x7FF0000000000000 ≤ x := by
  intro hle
  have hinfinity : rank (Float.ofBits 0x7FF0000000000000) = toLex (2, toLex (0, 0)) := by
    decide
  have hrank : toLex (2, toLex (0, 0)) ≤ rank x := hinfinity ▸ (le_iff.1 hle).2
  have htop : (2 : ℤ) ≤ (ofLex (rank x)).1 := Prod.Lex.monotone_fst _ _ hrank
  have hfinite : (ofLex (rank x)).1 ≤ 1 := fst_rankOf_le_one h
  omega

end FloatOrder

end SymbolicRegression
