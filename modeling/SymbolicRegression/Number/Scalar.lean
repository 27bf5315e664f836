/-!
# Scalars

The numeric algorithms of this library (polynomial expansion, line search, quasi-Newton updates)
use a handful of operations on numbers. They are written over the class `Scalar`, so that the same
definition runs on `Float` and can be read over an exact field, where every operation is the
mathematical one and every number is finite.
-/

namespace SymbolicRegression

/-- A type of numbers with the operations that the numeric algorithms use. -/
class Scalar (K : Type) extends Add K, Sub K, Mul K, Div K, Neg K where
  ofNat : Nat → K
  abs : K → K
  sqrt : K → K
  /-- Neither an infinity nor an undefined result. -/
  isFinite : K → Bool
  isNaN : K → Bool
  /-- The numeric order; false when an operand is undefined. -/
  lt : K → K → Bool
  /-- The numeric order or equality; false when an operand is undefined. -/
  le : K → K → Bool
  /-- Numeric equality; false when an operand is undefined. -/
  eq : K → K → Bool

namespace Scalar

variable {K : Type} [Scalar K]

def zero : K := ofNat 0

def one : K := ofNat 1

def two : K := ofNat 2

def three : K := ofNat 3

/-- The larger of two numbers; an undefined operand is passed over. -/
def max (a b : K) : K :=
  if isNaN a then b else if isNaN b then a else if lt a b then b else a

/-- The smaller of two numbers; an undefined operand is passed over. -/
def min (a b : K) : K :=
  if isNaN a then b else if isNaN b then a else if lt b a then b else a

/-- The nearest number to `x` between `low` and `high`. -/
def clamp (low high x : K) : K :=
  if lt x low then low else if lt high x then high else x

/-- The value itself where it is finite. -/
def finite? (x : K) : Option K :=
  if isFinite x then some x else none

/-- Adds from left to right. The start is negative zero, the neutral element of addition. -/
def sum (xs : List K) : K :=
  xs.foldl (· + ·) (-zero)

/-- `accumulated * x ^ n` by squaring: the factors are taken from the low bit of `n` upwards. -/
def powNatFrom (accumulated x : K) (n : Nat) : K :=
  let accumulated := if n % 2 = 1 then accumulated * x else accumulated
  if n / 2 = 0 then accumulated else powNatFrom accumulated (x * x) (n / 2)
  termination_by n
  decreasing_by omega

def powNat (x : K) (n : Nat) : K :=
  powNatFrom one x n

/-- A power with an integer exponent: a negative one is the reciprocal of the positive power. -/
def powInt (x : K) (n : Int) : K :=
  if n < 0 then one / powNat x n.natAbs else powNat x n.natAbs

end Scalar

instance : Scalar Float where
  ofNat := Float.ofNat
  abs := Float.abs
  sqrt := Float.sqrt
  isFinite := Float.isFinite
  isNaN := Float.isNaN
  lt a b := decide (a < b)
  le a b := decide (a ≤ b)
  eq a b := a == b

end SymbolicRegression
