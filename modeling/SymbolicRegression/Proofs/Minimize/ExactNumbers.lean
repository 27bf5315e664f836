import Mathlib.Algebra.Order.Field.Basic
import Mathlib.LinearAlgebra.Matrix.Notation
import SymbolicRegression.Minimize.Vector

/-!
# Exact numbers, vectors and matrices

Over the numbers of an ordered field every operation of the numeric algorithms can be the
mathematical one: nothing is rounded, every number is finite, and none is undefined. Only a square
root need not exist, so any function may stand for it, and what a statement needs of that function it
has to ask for.

The algorithms keep vectors as lists and matrices as lists of rows. Over exact numbers the list
operations are the operations on vectors and matrices, and from there on matrix algebra takes over.
-/

/-- The square matrices of size `n`. -/
abbrev Matrix.Square (n : ℕ) (K : Type) : Type :=
  Matrix (Fin n) (Fin n) K

namespace SymbolicRegression

/-- A number of `K`, computed with exactly. The function stands for the square root. -/
structure Exact (K : Type) (sqrt : K → K) where
  of ::
  val : K
  deriving DecidableEq

namespace Exact

variable {K : Type} [Field K] [LinearOrder K]

instance {sqrt : K → K} : Scalar (Exact K sqrt) where
  add a b := of (a.val + b.val)
  sub a b := of (a.val - b.val)
  mul a b := of (a.val * b.val)
  div a b := of (a.val / b.val)
  neg a := of (-a.val)
  ofNat n := of n
  abs a := of |a.val|
  sqrt a := of (sqrt a.val)
  isFinite _ := true
  isNaN _ := false
  lt a b := decide (a.val < b.val)
  le a b := decide (a.val ≤ b.val)
  eq a b := decide (a.val = b.val)

theorem zero_eq {sqrt : K → K} : (Scalar.zero : Exact K sqrt) = of 0 :=
  congrArg of Nat.cast_zero

theorem one_eq {sqrt : K → K} : (Scalar.one : Exact K sqrt) = of 1 :=
  congrArg of Nat.cast_one

theorem two_eq {sqrt : K → K} : (Scalar.two : Exact K sqrt) = of 2 :=
  congrArg of Nat.cast_ofNat

theorem three_eq {sqrt : K → K} : (Scalar.three : Exact K sqrt) = of 3 :=
  congrArg of Nat.cast_ofNat

theorem isFinite_eq {sqrt : K → K} (a : Exact K sqrt) : Scalar.isFinite a = true :=
  rfl

theorem lt_of_of {sqrt : K → K} (a b : K) :
    Scalar.lt (of a : Exact K sqrt) (of b) = decide (a < b) :=
  rfl

theorem le_of_of {sqrt : K → K} (a b : K) :
    Scalar.le (of a : Exact K sqrt) (of b) = decide (a ≤ b) :=
  rfl

theorem foldl_add {sqrt : K → K} (xs : List K) (a : K) :
    (xs.map of).foldl (· + ·) (of a : Exact K sqrt) = of (xs.foldl (· + ·) a) := by
  induction xs generalizing a with
  | nil => rfl
  | cons x xs ih => exact ih (a + x)

theorem sum_map_of {sqrt : K → K} (xs : List K) :
    Scalar.sum (xs.map of : List (Exact K sqrt)) = of xs.sum := by
  have hzero : (-Scalar.zero : Exact K sqrt) = of 0 := by
    rw [zero_eq]
    exact congrArg of neg_zero
  rw [Scalar.sum, hzero, foldl_add, List.sum_eq_foldl]

/-! ## Vectors -/

variable (sqrt : K → K) {n : ℕ}

/-- A vector as the list of its entries. -/
def entries (v : Fin n → K) : List (Exact K sqrt) :=
  List.ofFn fun i => of (v i)

omit [Field K] [LinearOrder K] in
theorem length_entries (v : Fin n → K) : (entries sqrt v).length = n :=
  List.length_ofFn

omit [Field K] [LinearOrder K] in
/-- Every list of numbers is a vector. -/
theorem exists_entries {l : List (Exact K sqrt)} (h : l.length = n) :
    ∃ v : Fin n → K, l = entries sqrt v := by
  subst h
  exact ⟨fun i => l[i].val, List.ofFn_getElem.symm⟩

theorem zipWith_ofFn {α β γ : Type} (f : α → β → γ) (v : Fin n → α) (w : Fin n → β) :
    List.zipWith f (List.ofFn v) (List.ofFn w) = List.ofFn fun i => f (v i) (w i) := by
  apply List.ext_getElem
  · simp
  · intro i _ _
    simp

theorem dot_entries (v w : Fin n → K) :
    Vector.dot (entries sqrt v) (entries sqrt w) = of (v ⬝ᵥ w) := by
  have hproducts : List.zipWith (· * ·) (entries sqrt v) (entries sqrt w) =
      (List.ofFn fun i => v i * w i).map of := by
    rw [entries, entries, zipWith_ofFn, List.map_ofFn]
    rfl
  rw [Vector.dot, hproducts, sum_map_of, List.sum_ofFn, dotProduct]

theorem negate_entries (v : Fin n → K) :
    Vector.negate (entries sqrt v) = entries sqrt (-v) := by
  rw [Vector.negate, entries, List.map_ofFn]
  rfl

theorem sub_entries (v w : Fin n → K) :
    Vector.sub (entries sqrt v) (entries sqrt w) = entries sqrt (v - w) := by
  rw [Vector.sub, entries, entries, zipWith_ofFn]
  rfl

/-! ## Matrices -/

/-- A matrix as the list of its rows. -/
def rows (H : Matrix.Square n K) : List (List (Exact K sqrt)) :=
  List.ofFn fun i => entries sqrt (H i)

theorem apply_rows (H : Matrix.Square n K) (v : Fin n → K) :
    Vector.apply (rows sqrt H) (entries sqrt v) = entries sqrt (H.mulVec v) := by
  rw [Vector.apply, rows, List.map_ofFn]
  exact congrArg _ (funext fun i => dot_entries sqrt (H i) v)

theorem identity_eq_rows (n : ℕ) :
    Vector.identity n = rows sqrt (1 : Matrix.Square n K) := by
  apply List.ext_getElem
  · simp [Vector.identity, rows]
  intro i _ _
  apply List.ext_getElem
  · simp [Vector.identity, rows, entries]
  intro j _ _
  simp only [Vector.identity, rows, entries, List.getElem_map, List.getElem_range,
    List.getElem_ofFn, Matrix.one_apply, Fin.mk.injEq]
  split
  · exact congrArg of Nat.cast_one
  · exact congrArg of Nat.cast_zero

end Exact

end SymbolicRegression
