import SymbolicRegression.Number.Scalar
import SymbolicRegression.Number.Decimal

/-!
# Rounding and cleaning

Numbers that people read are rounded to a number of decimals, a half away from zero. Numbers that
the search compares are cleaned first: a score that is not finite becomes one large sentinel, and a
prediction that is not finite becomes a finite one.
-/

namespace SymbolicRegression

namespace Number

/-- The nearest integer, a half going away from zero; zeros, infinities and undefined results stay
as they are. -/
def roundHalfAway (x : Float) : Float :=
  match Binary.ofFloat? x with
  | none => x
  | some b =>
    if 0 ≤ b.exponent then x
    else b.withWhole (roundDiv .up b.mantissa (Nat.pow 2 b.exponent.natAbs))

def isIntegral (x : Float) : Bool :=
  match Binary.ofFloat? x with
  | none => false
  | some b => decide (0 ≤ b.exponent) || b.mantissa % Nat.pow 2 b.exponent.natAbs == 0

/-- The integer part of a finite value: the fraction is cut off. -/
def truncate (x : Float) : Int :=
  match Binary.ofFloat? x with
  | none => 0
  | some b =>
    let magnitude := b.mantissa * Nat.pow 2 b.exponent.toNat / Nat.pow 2 (-b.exponent).toNat
    if b.negative then -(magnitude : Int) else magnitude

/-- Rounds to `decimals` places, a half away from zero. A value whose scaled form leaves the finite
range, and any value for more than fifteen places, stays as it is. The result is never negative
zero. -/
def roundTo (x : Float) (decimals : Nat) : Float :=
  if decimals > 15 || !x.isFinite then x
  else
    let scale := Scalar.powInt (10 : Float) decimals
    let scaled := x * scale
    if !scaled.isFinite then x
    else
      let r := roundHalfAway scaled / scale
      if r == 0 then 0 else r

/-- The score of a candidate that cannot be scored. -/
def nonFiniteSentinel : Float := 1e30

/-- A finite score as it is, and the sentinel for any other. -/
def sanitize (x : Float) : Float :=
  if x.isFinite then x else nonFiniteSentinel

def greatest : Float := Float.ofBits 0x7FEFFFFFFFFFFFFF

/-- An undefined result becomes zero and an infinity the largest finite number of its sign. -/
def nanToNum (x : Float) : Float :=
  if x.isNaN then 0
  else if x.isInf then (if x < 0 then -greatest else greatest)
  else x

end Number

end SymbolicRegression
