import SymbolicRegression.Expr.Parser
import SymbolicRegression.Number.Rounding
import SymbolicRegression.Polynomial.Expand
import SymbolicRegression.Registry

/-!
# Formulas

A formula is the expanded form of a text, with doubles as coefficients. Coefficients are printed
rounded to twelve decimals, and atoms are compared by their printed form.
-/

namespace SymbolicRegression

/-- Coefficients are printed with at most this many decimals. -/
def printedDecimals : Nat := 12

instance : Coefficient Float where
  power := Float.pow
  exponent? e :=
    if Number.isIntegral e && e.abs ≤ 2147483647 then some (Number.truncate e) else none
  label c := Number.plain (Number.roundTo c printedDecimals)
  compareAtoms a b := compare a.key b.key

abbrev Formula := Polynomial Float

inductive FormulaError where
  | parse (error : ParseError)
  | expand (error : ExpandError)

namespace FormulaError

def message : FormulaError → String
  | parse error => "cannot parse expression: " ++ error.message
  | expand (.unknownFunction name) => "unknown function " ++ Text.quoted name
  | expand (.arity name expected found) => s!"{name} takes {expected} arguments, got {found}"

end FormulaError

/-- What a name means when it is called: an operator of the registry, or else a helper, or else a
stock operator. -/
def Registry.meaning? (r : Registry) (name : String) : Option (Meaning Float) :=
  match r.operator? name with
  | some op => some ⟨op.arithmetic, op.arity, op.apply⟩
  | none => match r.helper? name with
    | some h => some ⟨.unknown, h.arity, h.apply⟩
    | none => (Builtin.find? name).map fun b => ⟨b.arithmetic, b.arity, b.apply⟩

namespace Formula

/-- The formula of a text. With `value?`, names of constant form are replaced by numbers. -/
def ofText (text : String) (registry : Registry) (value? : Option (String → Float)) :
    Except FormulaError Formula :=
  match parse text with
  | .error e => .error (.parse e)
  | .ok e =>
    match e.expand registry.meaning? value? with
    | .error e => .error (.expand e)
    | .ok p => .ok p

end Formula

end SymbolicRegression
