/-!
# Decimal digits of binary numbers

A finite double is `m * 2 ^ q` for integers `m` and `q`, so its place on a decimal grid `10 ^ k * ℤ`
is a quotient of natural numbers, and every question about its digits is settled by integer
division. Two readings are offered: the fewest digits that read back to the same double, and a
fixed number of digits rounded to nearest.
-/

namespace SymbolicRegression

/-- The finite number `mantissa * 2 ^ exponent`, with its sign apart (zero has one too). -/
structure Binary where
  negative : Bool
  mantissa : Nat
  exponent : Int
  deriving Repr, DecidableEq

namespace Binary

/-- The sign, mantissa and exponent held in the 64 bits of a double; none for infinities and
undefined results. -/
def ofFloat? (x : Float) : Option Binary :=
  let bits := x.toBits.toNat
  let negative := decide (bits / Nat.pow 2 63 = 1)
  let biased : Nat := bits / Nat.pow 2 52 % Nat.pow 2 11
  let fraction : Nat := bits % Nat.pow 2 52
  if biased = 2047 then none
  else if biased = 0 then some ⟨negative, fraction, -1074⟩
  else some ⟨negative, Nat.pow 2 52 + fraction, (biased : Int) - 1075⟩

/-- The double that carries the sign of `b` and the given whole magnitude. -/
def withWhole (b : Binary) (magnitude : Nat) : Float :=
  if b.negative then -(Float.ofNat magnitude) else Float.ofNat magnitude

end Binary

/-- Where a value that lies midway between two grid points goes. -/
inductive Tie where
  | up
  | toEven
  deriving Repr, DecidableEq

def roundDiv (tie : Tie) (numerator denominator : Nat) : Nat :=
  let low := numerator / denominator
  let twice := 2 * (numerator % denominator)
  if twice < denominator then low
  else if denominator < twice then low + 1
  else match tie with
    | .up => low + 1
    | .toEven => if low % 2 = 0 then low else low + 1

structure Decimal where
  coefficient : Nat
  exponent : Int
  deriving Repr, DecidableEq

namespace Decimal

/-- The quotient `m * 2 ^ q / 10 ^ k` as numerator and denominator. -/
def onGrid (m : Nat) (q k : Int) : Nat × Nat :=
  (m * Nat.pow 2 q.toNat * Nat.pow 10 (-k).toNat, Nat.pow 2 (-q).toNat * Nat.pow 10 k.toNat)

/-- The exponent of the leading decimal digit of `m * 2 ^ q`, for positive `m`. The estimate from
the binary logarithm is at most one off. -/
def leadingExponent (m : Nat) (q : Int) : Int :=
  let estimate := (q + m.log2) * 30103 / 100000
  let reaches (k : Int) : Bool :=
    let (n, d) := onGrid m q k
    decide (d ≤ n)
  if reaches (estimate + 1) then estimate + 1
  else if reaches estimate then estimate
  else estimate - 1

/-- Moves the zeros at the end of the coefficient into the exponent. -/
def dropZeros (fuel : Nat) (d : Decimal) : Decimal :=
  match fuel with
  | 0 => d
  | fuel + 1 =>
    if d.coefficient ≠ 0 ∧ d.coefficient % 10 = 0 then
      dropZeros fuel ⟨d.coefficient / 10, d.exponent + 1⟩
    else d

/-- The grid point nearest to the value among its two neighbours on the grid `10 ^ k` that read back
to it. The reals that round to `m * 2 ^ q` reach half a unit up and half a unit down, a quarter
unit where the next double below has a smaller exponent; the ends belong to them when `m` is
even. All lengths are taken in quarter units. -/
def readBackOnGrid (tie : Tie) (m : Nat) (q k : Int) : Option Nat :=
  let below := if m = Nat.pow 2 52 ∧ -1074 < q then 1 else 2
  let (value, unit) := onGrid (4 * m) (q - 2) k
  let (lower, _) := onGrid (4 * m - below) (q - 2) k
  let (upper, _) := onGrid (4 * m + 2) (q - 2) k
  let readsBack (c : Nat) : Bool :=
    if m % 2 = 0 then decide (lower ≤ c * unit ∧ c * unit ≤ upper)
    else decide (lower < c * unit ∧ c * unit < upper)
  let low := value / unit
  match readsBack low, readsBack (low + 1) with
  | true, true => some (roundDiv tie value unit)
  | true, false => some low
  | false, true => some (low + 1)
  | false, false => none

/-- The fewest decimal digits that read back to the double `m * 2 ^ q`, and of those the nearest
ones. Seventeen digits always suffice. -/
def shortest (tie : Tie) (b : Binary) : Decimal :=
  if b.mantissa = 0 then ⟨0, 0⟩
  else
    let top := leadingExponent b.mantissa b.exponent
    let found := (List.range 17).findSome? fun (n : Nat) =>
      let k := top - n
      (readBackOnGrid tie b.mantissa b.exponent k).map fun c => (⟨c, k⟩ : Decimal)
    dropZeros 18 (found.getD ⟨0, 0⟩)

/-- The value rounded to `places` digits after the leading one, a half to the even neighbour. -/
def rounded (places : Nat) (b : Binary) : Decimal :=
  if b.mantissa = 0 then ⟨0, 0⟩
  else
    let k := leadingExponent b.mantissa b.exponent - places
    let (n, d) := onGrid b.mantissa b.exponent k
    let c := roundDiv .toEven n d
    if c = Nat.pow 10 (places + 1) then ⟨Nat.pow 10 places, k + 1⟩ else ⟨c, k⟩

/-- The digits of the coefficient, leading digit first. -/
def digits (d : Decimal) : List Char :=
  Nat.toDigits 10 d.coefficient

/-- The power of ten that the leading digit stands for. -/
def scale (d : Decimal) : Int :=
  d.exponent + (d.digits.length - 1 : Nat)

end Decimal

end SymbolicRegression
