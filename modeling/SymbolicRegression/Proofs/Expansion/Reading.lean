import Mathlib.Algebra.BigOperators.Group.List.Basic
import Mathlib.Algebra.Field.Basic
import SymbolicRegression.Expr.Value
import SymbolicRegression.Polynomial.Formula

/-!
# The value of an expanded expression

Expansion is the same for all numbers, so it can be read over numbers that do not round. A `Reading`
takes such numbers to the elements of a field, and gives a meaning to what expansion leaves alone:
functions without arithmetic meaning, and powers. The value of a sum of monomials is then the sum of
products that it stands for, and the value of an expression is taken directly from its parts.
-/

namespace SymbolicRegression

variable {K F : Type}

/-- What numbers, functions and powers stand for in a field. -/
structure Reading (K F : Type) where
  /-- The coefficient that a double is read as. -/
  number : Float → K
  /-- The element of the field that a coefficient stands for. -/
  toField : K → F
  /-- What a function gives for arguments that are numbers. -/
  fold : String → List K → K
  function : String → List F → F
  power : F → F → F

namespace Monomial

/-- The product of the powers, for given values of the atoms. -/
def value [Field F] (v : Atom K → F) (m : Monomial K) : F :=
  (m.map fun f => v f.1 ^ f.2).prod

end Monomial

namespace Polynomial

/-- The sum of the terms, for given values of the coefficients and of the atoms. -/
def value [Field F] (toField : K → F) (v : Atom K → F) (p : Polynomial K) : F :=
  (p.map fun t => toField t.2 * Monomial.value v t.1).sum

end Polynomial

namespace Atom

mutual

/-- The value of an atom for given values of the symbols. -/
def value [Field F] (R : Reading K F) (symbols : String → F) : Atom K → F
  | .symbol name => symbols name
  | .call _ name arguments => R.function name (valuesOfAll R symbols arguments)
  | .group _ body => valueOfTerms R symbols body

def valuesOfAll [Field F] (R : Reading K F) (symbols : String → F) :
    List (List (List (Atom K × Int) × K)) → List F
  | [] => []
  | p :: ps => valueOfTerms R symbols p :: valuesOfAll R symbols ps

def valueOfTerms [Field F] (R : Reading K F) (symbols : String → F) :
    List (List (Atom K × Int) × K) → F
  | [] => 0
  | (m, c) :: p => R.toField c * valueOfFactors R symbols m + valueOfTerms R symbols p

def valueOfFactors [Field F] (R : Reading K F) (symbols : String → F) :
    List (Atom K × Int) → F
  | [] => 1
  | (a, e) :: m => value R symbols a ^ e * valueOfFactors R symbols m

end

end Atom

namespace Reading

/-- The value of a sum of monomials for given values of the symbols. -/
def valueOf [Field F] (R : Reading K F) (symbols : String → F) (p : Polynomial K) : F :=
  p.value R.toField (Atom.value R symbols)

/-- The value of an operation. -/
def binary [Field F] (R : Reading K F) : BinaryOp → F → F → F
  | .add, a, b => a + b
  | .sub, a, b => a - b
  | .mul, a, b => a * b
  | .div, a, b => a / b
  | .pow, a, b => R.power a b

/-- What the names of a registry mean for coefficients. -/
def meaning? (R : Reading K F) (r : Registry) (name : String) : Option (Meaning K) :=
  (r.meaning? name).map fun m => ⟨m.arithmetic, m.arity, R.fold name⟩

/-- What the names of a registry and the operations mean in the field, for given values of the
symbols. Where constants are substituted, a name of constant form is the number put in its place. -/
def interpretation [Field F] (R : Reading K F) (r : Registry) (value? : Option (String → Float))
    (symbols : String → F) : Interpretation F where
  number? name :=
    match value? with
    | some value =>
      if Name.isConstant name then some (R.toField (R.number (value name)))
      else some (symbols name)
    | none => some (symbols name)
  function? name := (r.meaning? name).map fun _ => R.function name
  neg a := -a
  binary := R.binary

end Reading

/-! ## Exact arithmetic -/

/-- The arithmetic of the coefficients is that of the field, a power with an integer exponent is the
power of the field, and only equal atoms are merged. Functions and all other powers may be anything,
as long as they give the same for numbers before and after the reading. -/
structure Reading.Exact [Coefficient K] [Field F] (R : Reading K F) : Prop where
  zero : R.toField Scalar.zero = 0
  one : R.toField Scalar.one = 1
  add : ∀ a b, R.toField (a + b) = R.toField a + R.toField b
  mul : ∀ a b, R.toField (a * b) = R.toField a * R.toField b
  neg : ∀ a, R.toField (-a) = -R.toField a
  div : ∀ a b, R.toField b ≠ 0 → R.toField (a / b) = R.toField a / R.toField b
  eq : ∀ a b, Scalar.eq a b = true ↔ R.toField a = R.toField b
  atoms : ∀ a b : Atom K, Coefficient.compareAtoms a b = .eq → a = b
  exponent : ∀ c n, Coefficient.exponent? c = some n → R.toField c = (n : F)
  power : ∀ a b, R.toField (Coefficient.power a b) = R.power (R.toField a) (R.toField b)
  powerInt : ∀ c n a, Coefficient.exponent? c = some n → (n < 0 → a ≠ 0) →
    R.power a (R.toField c) = a ^ n
  function : ∀ name values,
    R.toField (R.fold name values) = R.function name (values.map R.toField)

/-! ## Where an expression has a value -/

/-- The operation of two operands that arithmetic stands for. -/
def Arithmetic.binary? : Arithmetic → Option BinaryOp
  | add => some .add
  | sub => some .sub
  | mul => some .mul
  | div => some .div
  | pow => some .pow
  | neg => none
  | unknown => none

/-- The operation of two operands that a call of the name is expanded as. -/
def Registry.operation? (r : Registry) (name : String) : Option BinaryOp :=
  match r.meaning? name with
  | some m => if m.arity = 2 then m.arithmetic.binary? else none
  | none => none

/-- Every name that a registry takes for arithmetic is read as that arithmetic. -/
structure Reading.Respects [Field F] (R : Reading K F) (r : Registry) : Prop where
  binary : ∀ name op, r.operation? name = some op →
    ∀ a b, R.function name [a, b] = R.binary op a b
  neg : ∀ name m, r.meaning? name = some m → m.arithmetic = .neg → m.arity = 1 →
    ∀ a, R.function name [a] = -a

/-- Does the operation have a value? A divisor must not be zero, nor the base of a power whose
exponent is a negative integer. -/
def BinaryOp.Admits [Field F] : BinaryOp → F → F → Prop
  | div, _, b => b ≠ 0
  | pow, a, b => ∀ n : Int, n < 0 → b = n → a ≠ 0
  | _, _, _ => True

namespace Expr

mutual

/-- Every operation in the expression has a value, those included that are written as calls. -/
def Defined [Field F] (r : Registry) (I : Interpretation F) : Expr F → Prop
  | number _ => True
  | name _ => True
  | neg e => Defined r I e
  | binary op left right =>
    Defined r I left ∧ Defined r I right ∧
      ∀ a b, left.value? I = some a → right.value? I = some b → op.Admits a b
  | call f arguments =>
    DefinedAll r I arguments ∧
      ∀ op a b, r.operation? f = some op → valuesAll? I arguments = some [a, b] → op.Admits a b

def DefinedAll [Field F] (r : Registry) (I : Interpretation F) : List (Expr F) → Prop
  | [] => True
  | e :: es => Defined r I e ∧ DefinedAll r I es

end

mutual

/-- The expression with every number read anew. -/
def mapNumbers {A B : Type} (f : A → B) : Expr A → Expr B
  | number v => number (f v)
  | name n => name n
  | call g arguments => call g (mapNumbersAll f arguments)
  | neg e => neg (mapNumbers f e)
  | binary op l r => binary op (mapNumbers f l) (mapNumbers f r)

def mapNumbersAll {A B : Type} (f : A → B) : List (Expr A) → List (Expr B)
  | [] => []
  | e :: es => mapNumbers f e :: mapNumbersAll f es

end

end Expr

end SymbolicRegression
