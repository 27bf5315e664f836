import SymbolicRegression.Number.Scalar

/-!
# Sums of monomials

An expanded expression is a sum of monomials with coefficients, and a monomial is a product of atoms
with integer exponents. An atom is a symbol, a function applied to expanded arguments, or a group:
a sum of several terms that stays together, such as a divisor.

Monomials and sums are sorted lists. What the order compares, and which atoms count as equal, is
left to the type of coefficients: numbers that are printed compare atoms by their printed form,
while an exact reading compares them by what they are.
-/

namespace SymbolicRegression

/-- A factor that expansion does not look into. An applied function and a group carry the text by
which they are printed. -/
inductive Atom (K : Type) where
  | symbol (name : String)
  | call (key : String) (name : String) (arguments : List (List (List (Atom K × Int) × K)))
  | group (key : String) (body : List (List (Atom K × Int) × K))

/-- A product of atoms with non-zero exponents, in increasing order of the atoms. -/
abbrev Monomial (K : Type) := List (Atom K × Int)

/-- A sum of monomials with non-zero coefficients, in increasing order of the monomials. -/
abbrev Polynomial (K : Type) := List (Monomial K × K)

def Atom.key {K : Type} : Atom K → String
  | symbol name => name
  | call key _ _ => key
  | group key _ => key

/-- Numbers that can be coefficients of an expanded expression. -/
class Coefficient (K : Type) extends Scalar K where
  /-- A power with a number as exponent. -/
  power : K → K → K
  /-- The exponent that a number stands for, if it is an integer of at most 31 bits. -/
  exponent? : K → Option Int
  /-- The printed form of a number that is not negative. -/
  label : K → String
  /-- The order of atoms; equal ones are merged. -/
  compareAtoms : Atom K → Atom K → Ordering

/-- Does an exponent fit into 32 bits? -/
def isExponent (e : Int) : Bool :=
  -2147483648 ≤ e && e ≤ 2147483647

namespace Monomial

variable {K : Type} [Coefficient K]

/-- Compares factor by factor, the atom before the exponent; a shorter product comes first. -/
def compare : Monomial K → Monomial K → Ordering
  | [], [] => .eq
  | [], _ :: _ => .lt
  | _ :: _, [] => .gt
  | (a, d) :: m, (b, e) :: n =>
    ((Coefficient.compareAtoms a b).then (Ord.compare d e)).then (compare m n)

/-- Multiplies by one more power of an atom. A factor whose exponent becomes zero disappears; none
if an exponent would not fit. -/
def mulAtom (a : Atom K) (e : Int) : Monomial K → Option (Monomial K)
  | [] => if isExponent e then some (if e = 0 then [] else [(a, e)]) else none
  | (b, d) :: m =>
    match Coefficient.compareAtoms a b with
    | .lt =>
      if isExponent e then some (if e = 0 then (b, d) :: m else (a, e) :: (b, d) :: m) else none
    | .eq => if isExponent (d + e) then some (if d + e = 0 then m else (b, d + e) :: m) else none
    | .gt => (mulAtom a e m).map ((b, d) :: ·)

/-- The product; none if an exponent would not fit. -/
def mul (m n : Monomial K) : Option (Monomial K) :=
  n.foldlM (fun m (a, e) => mulAtom a e m) m

/-- The power; none if an exponent would not fit. -/
def pow (m : Monomial K) (n : Int) : Option (Monomial K) :=
  m.mapM fun (a, e) => if isExponent (e * n) then some (a, e * n) else none

end Monomial

namespace Polynomial

variable {K : Type} [Coefficient K]

open Scalar

def precedes (s t : Monomial K × K) : Bool :=
  (Monomial.compare s.1 t.1).isLE

/-- Puts a term in front of others, or adds its coefficient to the first of them if the two have the
same monomial. -/
def absorb (terms : List (Monomial K × K)) (t : Monomial K × K) : List (Monomial K × K) :=
  match terms with
  | [] => [t]
  | (m, c) :: rest => if Monomial.compare m t.1 = .eq then (m, c + t.2) :: rest else t :: terms

/-- Merges the like terms among terms in increasing order, adding their coefficients from left to
right. A term whose coefficient becomes zero disappears. -/
def gather (terms : List (Monomial K × K)) : Polynomial K :=
  (terms.foldl absorb []).reverse.filter fun t => !eq t.2 zero

def term (c : K) (m : Monomial K) : Polynomial K :=
  gather [(m, c)]

def constant (c : K) : Polynomial K :=
  term c []

def ofAtom (a : Atom K) : Polynomial K :=
  term one [(a, 1)]

/-- The value of a sum without atoms. -/
def constant? : Polynomial K → Option K
  | [] => some zero
  | [([], c)] => some c
  | _ => none

/-- The only term of a sum of one term. -/
def single? : Polynomial K → Option (Monomial K × K)
  | [t] => some t
  | _ => none

def add (p q : Polynomial K) : Polynomial K :=
  gather (List.merge p q precedes)

def scale (p : Polynomial K) (k : K) : Polynomial K :=
  gather (p.map fun (m, c) => (m, c * k))

/-- The product of two terms; none if an exponent would not fit. -/
def mulTerms (s t : Monomial K × K) : Option (Monomial K × K) :=
  (Monomial.mul s.1 t.1).map fun m => (m, s.2 * t.2)

/-- The products of the terms of two sums, as they come; none if an exponent would not fit. -/
def products (p q : Polynomial K) : Option (List (Monomial K × K)) :=
  (p.mapM fun s => q.mapM fun t => mulTerms s t).map List.flatten

/-- The product; none if an exponent would not fit. -/
def mul (p q : Polynomial K) : Option (Polynomial K) :=
  (products p q).map fun terms => gather (terms.mergeSort precedes)

end Polynomial

end SymbolicRegression
