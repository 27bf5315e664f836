import SymbolicRegression.Number.Text

/-!
# JSON documents

A document keeps its numbers as numerals, so that an integer and a fraction of equal value stay
apart, and the entries of its objects in their order.
-/

namespace SymbolicRegression

inductive Json where
  | null
  | bool (value : Bool)
  | number (numeral : String)
  | string (value : String)
  | array (items : List Json)
  | object (entries : List (String × Json))

namespace Json

def ofNat (n : Nat) : Json :=
  .number (Number.ofInt n)

/-- The decimal exponents at which digits are written out in full, the second one excluded. -/
def plainScales : Int × Int := (-5, 16)

/-- The numeral of a finite magnitude: the shortest digits, with a fraction part even for integers,
and with a signed exponent for very small and very large magnitudes. -/
def magnitude (b : Binary) : String :=
  let d := Decimal.shortest .toEven b
  if plainScales.1 ≤ d.scale && d.scale < plainScales.2 then
    if 0 ≤ d.exponent then d.plain ++ ".0" else d.plain
  else
    match d.digits with
    | [] => ""
    | first :: rest =>
      let fraction := if rest.isEmpty then [] else '.' :: rest
      String.ofList (first :: fraction) ++ "e" ++ (if 0 ≤ d.scale then "+" else "")
        ++ Number.ofInt d.scale

def ofFloat (x : Float) : Json :=
  if x.isFinite then .number (Number.written magnitude x) else .null

/-- The entry of that name; the last one counts. -/
def entry? (entries : List (String × Json)) (name : String) : Option Json :=
  (entries.reverse.find? fun (n, _) => n == name).map Prod.snd

end Json

end SymbolicRegression
