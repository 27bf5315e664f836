import SymbolicRegression.Number.Scalar

/-!
# Vectors

Vectors are lists of numbers and matrices are lists of rows. Sums run from left to right.
-/

namespace SymbolicRegression

namespace Vector

variable {K : Type} [Scalar K]

/-- The largest magnitude. -/
def infNorm (v : List K) : K :=
  (v.map Scalar.abs).foldl Scalar.max Scalar.zero

def dot (v w : List K) : K :=
  Scalar.sum (List.zipWith (· * ·) v w)

/-- The point `x + alpha * s`. -/
def along (x : List K) (alpha : K) (s : List K) : List K :=
  List.zipWith (fun xi si => xi + alpha * si) x s

def sub (v w : List K) : List K :=
  List.zipWith (· - ·) v w

def negate (v : List K) : List K :=
  v.map (- ·)

/-- A matrix applied to a vector. -/
def apply (rows : List (List K)) (v : List K) : List K :=
  rows.map fun row => dot row v

/-- The identity matrix of that size. -/
def identity (n : Nat) : List (List K) :=
  (List.range n).map fun i =>
    (List.range n).map fun j => if i = j then Scalar.one else Scalar.zero

end Vector

end SymbolicRegression
