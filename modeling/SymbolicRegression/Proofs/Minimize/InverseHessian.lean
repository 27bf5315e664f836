import Mathlib.Algebra.Order.Ring.Basic
import Mathlib.LinearAlgebra.Matrix.Symmetric
import Mathlib.Tactic.FieldSimp
import Mathlib.Tactic.Linarith
import Mathlib.Tactic.Positivity
import Mathlib.Tactic.Ring
import SymbolicRegression.Minimize.QuasiNewton
import SymbolicRegression.Proofs.Minimize.ExactNumbers

/-!
# The estimate of the inverse Hessian

A step corrects the estimate of the inverse Hessian entry by entry, with two terms made of the step
and of the estimate applied to the change of the gradient. Over exact numbers the corrections of all
entries are a sum of matrices, and three properties can be read off it. It is symmetric. It takes the
change of the gradient to the step. And its quadratic form at a vector is the form of the old
estimate at another vector, and a square. The square is zero only where the other vector is the
vector itself, so the corrected estimate is positive definite if the old one was.
-/

namespace SymbolicRegression

namespace QuasiNewton

open Exact (entries rows)
variable {K : Type} [Field K] {n : ℕ}

/-! ## The update as matrix algebra -/

/-- The correction of an estimate by a step `dx` that changed the gradient by `dg`. -/
def corrected (H : Matrix.Square n K) (dx dg : Fin n → K) : Matrix.Square n K :=
  let agreement := dx ⬝ᵥ dg
  let u := H.mulVec dg
  H + (((agreement + dg ⬝ᵥ u) / (agreement * agreement)) • Matrix.vecMulVec dx dx -
    (1 / agreement) • (Matrix.vecMulVec u dx + Matrix.vecMulVec dx u))

theorem corrected_mulVec (H : Matrix.Square n K) (dx dg v : Fin n → K) :
    (corrected H dx dg).mulVec v =
      H.mulVec v + (((dx ⬝ᵥ dg + dg ⬝ᵥ H.mulVec dg) / (dx ⬝ᵥ dg * dx ⬝ᵥ dg) * dx ⬝ᵥ v) • dx -
        (1 / dx ⬝ᵥ dg) • ((dx ⬝ᵥ v) • H.mulVec dg + ((H.mulVec dg) ⬝ᵥ v) • dx)) := by
  simp only [corrected, Matrix.add_mulVec, Matrix.sub_mulVec, Matrix.smul_mulVec,
    Matrix.vecMulVec_mulVec, op_smul_eq_smul, smul_smul]

/-- The corrected estimate takes the change of the gradient to the step. -/
theorem corrected_mulVec_change (H : Matrix.Square n K) {dx dg : Fin n → K}
    (h : dx ⬝ᵥ dg ≠ 0) : (corrected H dx dg).mulVec dg = dx := by
  rw [corrected_mulVec, dotProduct_comm (H.mulVec dg) dg]
  ext i
  simp only [Pi.add_apply, Pi.sub_apply, Pi.smul_apply, smul_eq_mul]
  field_simp
  ring

theorem isSymm_corrected {H : Matrix.Square n K} (h : H.IsSymm) (dx dg : Fin n → K) :
    (corrected H dx dg).IsSymm := by
  refine h.add (Matrix.IsSymm.sub ?_ ?_)
  · refine Matrix.IsSymm.smul ?_ _
    exact Matrix.transpose_vecMulVec dx dx
  · refine Matrix.IsSymm.smul ?_ _
    rw [Matrix.IsSymm, Matrix.transpose_add, Matrix.transpose_vecMulVec,
      Matrix.transpose_vecMulVec, add_comm]

/-- The quadratic form of the corrected estimate is the old one at another vector and a square. -/
theorem dotProduct_corrected_mulVec {H : Matrix.Square n K} (hsymm : H.IsSymm)
    {dx dg : Fin n → K} (h : dx ⬝ᵥ dg ≠ 0) (v : Fin n → K) :
    let t := dx ⬝ᵥ v / dx ⬝ᵥ dg
    v ⬝ᵥ (corrected H dx dg).mulVec v =
      (v - t • dg) ⬝ᵥ H.mulVec (v - t • dg) + dx ⬝ᵥ dg * t ^ 2 := by
  intro t
  have hswap : dg ⬝ᵥ H.mulVec v = v ⬝ᵥ H.mulVec dg := by
    conv_lhs => rw [← hsymm.eq]
    exact Matrix.dotProduct_transpose_mulVec H dg v
  simp only [corrected_mulVec, Matrix.mulVec_sub, Matrix.mulVec_smul, dotProduct_add,
    dotProduct_sub, sub_dotProduct, dotProduct_smul, smul_dotProduct, smul_eq_mul, hswap,
    dotProduct_comm (H.mulVec dg) v, dotProduct_comm v dx]
  simp only [t]
  field_simp
  ring

section Ordered

variable [LinearOrder K]

/-- Symmetric, and positive in every direction. -/
structure IsPositiveDefinite (H : Matrix.Square n K) : Prop where
  isSymm : H.IsSymm
  pos : ∀ v, v ≠ 0 → 0 < v ⬝ᵥ H.mulVec v

theorem IsPositiveDefinite.nonneg {H : Matrix.Square n K} (h : IsPositiveDefinite H)
    (v : Fin n → K) : 0 ≤ v ⬝ᵥ H.mulVec v := by
  by_cases hv : v = 0
  · rw [hv, zero_dotProduct]
  · exact (h.pos v hv).le

variable [IsStrictOrderedRing K]

theorem dotProduct_self_pos {v : Fin n → K} (hv : v ≠ 0) : 0 < v ⬝ᵥ v := by
  obtain ⟨i, hi⟩ := Function.ne_iff.mp hv
  exact Finset.sum_pos' (fun j _ => mul_self_nonneg (v j))
    ⟨i, Finset.mem_univ i, mul_self_pos.mpr hi⟩

theorem isPositiveDefinite_one : IsPositiveDefinite (1 : Matrix.Square n K) where
  isSymm := Matrix.isSymm_one
  pos v hv := by
    rw [Matrix.one_mulVec]
    exact dotProduct_self_pos hv

theorem IsPositiveDefinite.corrected {H : Matrix.Square n K} (h : IsPositiveDefinite H)
    {dx dg : Fin n → K} (hagree : 0 < dx ⬝ᵥ dg) : IsPositiveDefinite (corrected H dx dg) where
  isSymm := isSymm_corrected h.isSymm dx dg
  pos v hv := by
    rw [dotProduct_corrected_mulVec h.isSymm hagree.ne']
    by_cases ht : dx ⬝ᵥ v / dx ⬝ᵥ dg = 0
    · rw [ht, zero_smul, sub_zero, zero_pow two_ne_zero, mul_zero, add_zero]
      exact h.pos v hv
    · exact add_pos_of_nonneg_of_pos (h.nonneg _) (mul_pos hagree (sq_pos_of_ne_zero ht))

end Ordered

/-! ## The update of the lists -/

section Exact

variable [LinearOrder K] (sqrt : K → K)

theorem agrees_iff (dx dg : Fin n → K) :
    (Scalar.lt Scalar.zero (Exact.of (dx ⬝ᵥ dg) : Exact K sqrt) &&
      Scalar.isFinite (Exact.of (dx ⬝ᵥ dg) : Exact K sqrt)) = true ↔ 0 < dx ⬝ᵥ dg := by
  rw [Exact.isFinite_eq, Bool.and_true, Exact.zero_eq, Exact.lt_of_of, decide_eq_true_iff]

theorem update_rows (H : Matrix.Square n K) {dx dg : Fin n → K} (h : 0 < dx ⬝ᵥ dg) :
    update (rows sqrt H) (entries sqrt dx) (entries sqrt dg) = rows sqrt (corrected H dx dg) := by
  rw [update]
  simp only [Exact.dot_entries, Exact.apply_rows]
  rw [if_pos ((agrees_iff sqrt dx dg).mpr h), if_pos (Exact.isFinite_eq _), List.zip_eq_zipWith,
    entries, entries, Exact.zipWith_ofFn, rows, Exact.zipWith_ofFn]
  refine congrArg _ (funext fun i => ?_)
  rw [entries, Exact.zipWith_ofFn]
  refine congrArg _ (funext fun j => ?_)
  rw [Exact.one_eq, corrected, Matrix.add_apply, Matrix.sub_apply, Matrix.smul_apply,
    Matrix.smul_apply, Matrix.add_apply, smul_eq_mul, smul_eq_mul, Matrix.vecMulVec_apply,
    Matrix.vecMulVec_apply, Matrix.vecMulVec_apply, ← mul_assoc]
  rfl

/-- Without agreement the estimate stays as it is. -/
theorem update_rows_of_not_pos (H : Matrix.Square n K) {dx dg : Fin n → K}
    (h : ¬0 < dx ⬝ᵥ dg) :
    update (rows sqrt H) (entries sqrt dx) (entries sqrt dg) = rows sqrt H := by
  rw [update]
  simp only [Exact.dot_entries]
  rw [if_neg (mt (agrees_iff sqrt dx dg).mp h)]

/-- The list is the list of rows of a positive definite matrix of size `n`. -/
def IsEstimate (n : ℕ) (inverse : List (List (Exact K sqrt))) : Prop :=
  ∃ H : Matrix.Square n K, inverse = rows sqrt H ∧ IsPositiveDefinite H

variable [IsStrictOrderedRing K]

theorem isEstimate_identity (n : ℕ) : IsEstimate sqrt n (Vector.identity n) :=
  ⟨1, Exact.identity_eq_rows sqrt n, isPositiveDefinite_one⟩

variable {sqrt}

theorem IsEstimate.update {inverse : List (List (Exact K sqrt))} (h : IsEstimate sqrt n inverse)
    {dx dg : List (Exact K sqrt)} (hdx : dx.length = n) (hdg : dg.length = n) :
    IsEstimate sqrt n (update inverse dx dg) := by
  obtain ⟨H, rfl, hH⟩ := h
  obtain ⟨dx, rfl⟩ := Exact.exists_entries sqrt hdx
  obtain ⟨dg, rfl⟩ := Exact.exists_entries sqrt hdg
  by_cases hagree : 0 < dx ⬝ᵥ dg
  · exact ⟨corrected H dx dg, update_rows sqrt H hagree, hH.corrected hagree⟩
  · exact ⟨H, update_rows_of_not_pos sqrt H hagree, hH⟩

end Exact

end QuasiNewton

end SymbolicRegression
