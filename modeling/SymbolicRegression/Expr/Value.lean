import SymbolicRegression.Expr.Basic

/-!
# The value of an expression

What an expression means without compiling or expanding it: the value of each part is computed from
the values of its own parts. The reading of names, of calls and of the operations is left open, so
that one definition serves doubles, where the operations round, and any other numbers.
-/

namespace SymbolicRegression

/-- What names, calls and operations mean over numbers of type `K`. A name that means nothing has
no number or function. -/
structure Interpretation (K : Type) where
  number? : String → Option K
  function? : String → Option (List K → K)
  neg : K → K
  binary : BinaryOp → K → K → K

namespace Expr

variable {K : Type}

mutual

/-- The value of an expression; none if a name in it means nothing. -/
def value? (I : Interpretation K) : Expr K → Option K
  | number v => some v
  | name n => I.number? n
  | call f arguments =>
    match I.function? f, valuesAll? I arguments with
    | some apply, some values => some (apply values)
    | _, _ => none
  | neg e =>
    match value? I e with
    | some v => some (I.neg v)
    | none => none
  | binary op l r =>
    match value? I l, value? I r with
    | some a, some b => some (I.binary op a b)
    | _, _ => none

/-- The values of a row of expressions; none if one of them has none. -/
def valuesAll? (I : Interpretation K) : List (Expr K) → Option (List K)
  | [] => some []
  | e :: es =>
    match value? I e, valuesAll? I es with
    | some v, some vs => some (v :: vs)
    | _, _ => none

end

end Expr

end SymbolicRegression
