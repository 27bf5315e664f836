import SymbolicRegression.Number.Decimal

/-!
# Written forms of numbers

Three written forms share the digits of `Decimal`: scientific, with the exponent always written;
plain, with the digits written out in full; and scientific with a fixed number of places, for
tables.
-/

namespace SymbolicRegression

/-- The text of an integer: a minus sign and the digits. -/
def Number.ofInt (i : Int) : String :=
  if i < 0 then "-" ++ String.ofList (Nat.toDigits 10 i.natAbs)
  else String.ofList (Nat.toDigits 10 i.natAbs)

namespace Decimal

/-- One digit, then the others after a point, then the exponent: `2.5e-1`. -/
def scientific (d : Decimal) : String :=
  match d.digits with
  | [] => ""
  | first :: rest =>
    let fraction := if rest.isEmpty then [] else '.' :: rest
    String.ofList (first :: fraction) ++ "e" ++ Number.ofInt d.scale

/-- The digits written out in full, with zeros up to the point where it lies outside of them. -/
def plain (d : Decimal) : String :=
  let digits := d.digits
  if 0 ≤ d.exponent then
    String.ofList (digits ++ List.replicate d.exponent.toNat '0')
  else
    let places := d.exponent.natAbs
    if places < digits.length then
      let whole := digits.length - places
      String.ofList (digits.take whole ++ '.' :: digits.drop whole)
    else
      String.ofList ('0' :: '.' :: List.replicate (places - digits.length) '0' ++ digits)

end Decimal

namespace Number

/-- Writes the sign and, for a finite number, its magnitude by `magnitude`. -/
def written (magnitude : Binary → String) (x : Float) : String :=
  match Binary.ofFloat? x with
  | some b => (if b.negative then "-" else "") ++ magnitude b
  | none => if x.isNaN then "NaN" else if x < 0 then "-inf" else "inf"

/-- The shortest digits that read back, with an exponent: `1e0`, `-2.5e-1`, `NaN`, `-inf`. -/
def scientific : Float → String :=
  written fun b => (Decimal.shortest .up b).scientific

/-- The shortest digits that read back, written out in full: `1`, `-0.25`, `NaN`, `-inf`. -/
def plain : Float → String :=
  written fun b => (Decimal.shortest .up b).plain

/-- The number rounded to `places` digits after the leading one: `1.500000e-3`. -/
def scientificPlaces (places : Nat) : Float → String :=
  written fun b =>
    let d := Decimal.rounded places b
    if d.coefficient = 0 then
      let fraction := if places = 0 then [] else '.' :: List.replicate places '0'
      String.ofList ('0' :: fraction) ++ "e0"
    else d.scientific

end Number

end SymbolicRegression
