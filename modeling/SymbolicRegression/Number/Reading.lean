/-!
# Reading numbers

A numeral is an optional sign followed by a word for a special value (`inf`, `infinity`, `nan`, in
any case) or by decimal digits with an optional point and an optional exponent. The value is the
double nearest to the decimal number, however many digits it has.
-/

namespace SymbolicRegression

inductive NumeralError where
  | empty
  | malformed
  deriving Repr, DecidableEq

namespace NumeralError

def message : NumeralError → String
  | empty => "cannot parse float from empty string"
  | malformed => "invalid float literal"

end NumeralError

namespace Numeral

/-- The natural number with these decimal digits; the empty sequence is zero. -/
def ofDigits (ds : List Char) : Nat :=
  ds.foldl (fun n d => 10 * n + (d.toNat - '0'.toNat)) 0

/-- The double nearest to `coefficient * 10 ^ exponent`. Magnitudes from `10 ^ 400` on are infinite
and those below `10 ^ (-400)` are zero, so no huge power is ever formed. -/
def nearest (coefficient : Nat) (exponent : Int) : Float :=
  if coefficient = 0 then 0
  else
    let size : Int := (Nat.toDigits 10 coefficient).length + exponent
    if 400 < size then Float.ofBits 0x7FF0000000000000
    else if size < -400 then 0
    else if exponent < 0 then Float.ofScientific coefficient true exponent.natAbs
    else Float.ofScientific coefficient false exponent.natAbs

/-- Splits an optional sign from the text. -/
def splitSign : List Char → Bool × List Char
  | '-' :: rest => (true, rest)
  | '+' :: rest => (false, rest)
  | cs => (false, cs)

/-- The exponent part `e±digits` that a numeral may end in. -/
def exponentOf? : List Char → Option Int
  | [] => some 0
  | e :: rest =>
    if e = 'e' ∨ e = 'E' then
      let (negative, ds) := splitSign rest
      if ds.isEmpty ∨ ¬ ds.all Char.isDigit then none
      else some (if negative then -(ofDigits ds : Int) else ofDigits ds)
    else none

/-- The value of an unsigned decimal numeral, which has a digit before or after the point. -/
def unsigned? (cs : List Char) : Option Float :=
  let whole := cs.takeWhile Char.isDigit
  let afterWhole := cs.dropWhile Char.isDigit
  let (fraction, rest) := match afterWhole with
    | '.' :: r => (r.takeWhile Char.isDigit, r.dropWhile Char.isDigit)
    | r => ([], r)
  if whole.isEmpty && fraction.isEmpty then none
  else (exponentOf? rest).map fun e => nearest (ofDigits (whole ++ fraction)) (e - fraction.length)

/-- The value that a word stands for. -/
def special? (cs : List Char) : Option Float :=
  match String.ofList (cs.map Char.toLower) with
  | "inf" | "infinity" => some (Float.ofBits 0x7FF0000000000000)
  | "nan" => some (Float.ofBits 0x7FF8000000000000)
  | _ => none

def read (text : String) : Except NumeralError Float :=
  match text.toList with
  | [] => .error .empty
  | cs =>
    let (negative, magnitude) := splitSign cs
    match (special? magnitude).or (unsigned? magnitude) with
    | some x => .ok (if negative then -x else x)
    | none => .error .malformed

/-- The number that a text denotes, if it denotes one. -/
def read? (text : String) : Option Float :=
  (read text).toOption

/-- A natural number below `bound`, written in decimal digits with an optional plus sign. -/
def readNat? (bound : Nat) (text : String) : Option Nat :=
  let ds := match text.toList with
    | '+' :: rest => rest
    | cs => cs
  if ds.isEmpty ∨ ¬ ds.all Char.isDigit then none
  else
    let n := ofDigits ds
    if n < bound then some n else none

end Numeral

end SymbolicRegression
