import SymbolicRegression.Expr.Basic
import SymbolicRegression.Name
import SymbolicRegression.Operator
import SymbolicRegression.Polynomial.Text

/-!
# Expanding expressions

An expression becomes a sum of monomials: sums and products are multiplied out, quotients become
negative exponents, and powers with an integer exponent are taken. Functions without arithmetic
meaning stay applied, unless all their arguments are numbers; then they are computed. Where an
exponent would not fit into 32 bits, the operation stays applied as well.
-/

namespace SymbolicRegression

/-- A sum of several terms is multiplied out up to this power and grouped beyond it. -/
def maxExpandedPower : Int := 8

structure Meaning (K : Type) where
  arithmetic : Arithmetic
  arity : Nat
  apply : List K → K

inductive ExpandError where
  | unknownFunction (name : String)
  | arity (name : String) (expected found : Nat)
  deriving Repr, DecidableEq

namespace Polynomial

variable {K : Type} [Coefficient K]

open Scalar

/-- The product of `n + 1` copies of `p`. -/
def powSucc (p : Polynomial K) : Nat → Option (Polynomial K)
  | 0 => some p
  | n + 1 => (powSucc p n).bind fun q => mul q p

/-- The power with an integer exponent; none if an exponent would not fit. -/
def powInt (p : Polynomial K) (n : Int) : Option (Polynomial K) :=
  if n = 0 then some (constant one)
  else match constant? p with
    | some c => some (constant (Scalar.powInt c n))
    | none => match single? p with
      | some (m, c) => (Monomial.pow m n).map fun mn => term (Scalar.powInt c n) mn
      | none =>
        if 1 ≤ n && n ≤ maxExpandedPower then powSucc p (n.natAbs - 1)
        else some (term one [(Atom.ofGroup p, n)])

def div (p q : Polynomial K) : Option (Polynomial K) :=
  (powInt q (-1)).bind fun r => mul p r

/-- The power; none if the exponent is no integer, or an exponent would not fit. -/
def pow (p q : Polynomial K) : Option (Polynomial K) :=
  match constant? p, constant? q with
  | some b, some e => some (constant (Coefficient.power b e))
  | _, some e => (Coefficient.exponent? e).bind fun n => powInt p n
  | _, none => none

/-- The name under which an operation that was not carried out stays applied. -/
def keptName : BinaryOp → String
  | .add => "add"
  | .sub => "sub"
  | .mul => "mul"
  | .div => "div"
  | .pow => "pow"

/-- The result of an operation where it can be carried out. -/
def binary? (op : BinaryOp) (p q : Polynomial K) : Option (Polynomial K) :=
  match op with
  | .add => some (add p q)
  | .sub => some (add p (scale q (-one)))
  | .mul => mul p q
  | .div => div p q
  | .pow => pow p q

/-- The result of an operation; what cannot be carried out stays applied. -/
def binary (op : BinaryOp) (p q : Polynomial K) : Polynomial K :=
  (binary? op p q).getD (ofAtom (Atom.ofCall (keptName op) [p, q]))

/-- A function without arithmetic meaning: computed if all its arguments are numbers. -/
def applied (name : String) (apply : List K → K) (arguments : List (Polynomial K)) :
    Polynomial K :=
  match arguments.mapM constant? with
  | some values => constant (apply values)
  | none => ofAtom (Atom.ofCall name arguments)

/-- The result of a call. Arithmetic that takes another number of operands than the call has is
none at all. -/
def call (name : String) (meaning : Meaning K) (arguments : List (Polynomial K)) : Polynomial K :=
  match meaning.arithmetic, arguments with
  | .add, [p, q] => binary .add p q
  | .sub, [p, q] => binary .sub p q
  | .mul, [p, q] => binary .mul p q
  | .div, [p, q] => binary .div p q
  | .pow, [p, q] => binary .pow p q
  | .neg, [p] => scale p (-one)
  | _, arguments => applied name meaning.apply arguments

end Polynomial

namespace Expr

variable {K : Type} [Coefficient K]

mutual

/-- Expands an expression. Calls get their meaning from `meaning?`; with `value?`, names of constant
form are replaced by numbers. -/
def expand (meaning? : String → Option (Meaning K)) (value? : Option (String → K)) :
    Expr K → Except ExpandError (Polynomial K)
  | .number v => .ok (Polynomial.constant v)
  | .name n =>
    match value? with
    | some value => .ok (if Name.isConstant n then Polynomial.constant (value n)
      else Polynomial.ofAtom (.symbol n))
    | none => .ok (Polynomial.ofAtom (.symbol n))
  | .neg e => do
    let p ← expand meaning? value? e
    return Polynomial.scale p (-Scalar.one)
  | .binary op l r => do
    let p ← expand meaning? value? l
    let q ← expand meaning? value? r
    return Polynomial.binary op p q
  | .call f arguments =>
    match meaning? f with
    | none => .error (.unknownFunction f)
    | some meaning =>
      if meaning.arity ≠ arguments.length then
        .error (.arity f meaning.arity arguments.length)
      else do
        let ps ← expandAll meaning? value? arguments
        return Polynomial.call f meaning ps

def expandAll (meaning? : String → Option (Meaning K)) (value? : Option (String → K)) :
    List (Expr K) → Except ExpandError (List (Polynomial K))
  | [] => .ok []
  | e :: es => do
    let p ← expand meaning? value? e
    let ps ← expandAll meaning? value? es
    return p :: ps

end

end Expr

namespace Atom

variable {K : Type}

mutual

/-- The symbols in an atom, those inside of arguments and groups included. -/
def symbols : Atom K → List String
  | .symbol name => [name]
  | .call _ _ arguments => symbolsOfAll arguments
  | .group _ body => symbolsOfTerms body

def symbolsOfAll : List (List (List (Atom K × Int) × K)) → List String
  | [] => []
  | p :: ps => symbolsOfTerms p ++ symbolsOfAll ps

def symbolsOfTerms : List (List (Atom K × Int) × K) → List String
  | [] => []
  | (m, _) :: p => symbolsOfFactors m ++ symbolsOfTerms p

def symbolsOfFactors : List (Atom K × Int) → List String
  | [] => []
  | (a, _) :: m => symbols a ++ symbolsOfFactors m

end

end Atom

namespace Polynomial

variable {K : Type}

/-- Puts a name into an increasing list, once. -/
def insertName (name : String) : List String → List String
  | [] => [name]
  | n :: ns =>
    if name < n then name :: n :: ns
    else if name = n then n :: ns
    else n :: insertName name ns

/-- The symbols of a sum in increasing order, each once. -/
def symbols (p : Polynomial K) : List String :=
  (Atom.symbolsOfTerms p).foldl (fun names name => insertName name names) []

def constantSymbols (p : Polynomial K) : List String :=
  p.symbols.filter Name.isConstant

/-- Equality term by term: monomials by the order of atoms, coefficients as numbers. -/
def same [Coefficient K] (p q : Polynomial K) : Bool :=
  p.length == q.length
    && (p.zip q).all fun ((m, c), (n, d)) => Monomial.compare m n == .eq && Scalar.eq c d

end Polynomial

end SymbolicRegression
