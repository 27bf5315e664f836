import SymbolicRegression.Number.Text
import SymbolicRegression.Polynomial.Basic

/-!
# Printing sums of monomials

A sum is printed with its constant term last. Factors with negative exponents go below a fraction
bar, and a coefficient of one is left out where a factor follows. The same layout serves plain text
and LaTeX, which differ in how powers, products and fractions are put together and in how an atom
is shown.
-/

namespace SymbolicRegression

/-- How the parts of a term are put together. -/
structure PrintStyle where
  /-- A base with an exponent other than one. -/
  raise : String → String → String
  times : String
  /-- A numerator over a denominator of that many factors. -/
  quotient : String → String → Nat → String

namespace PrintStyle

/-- Plain text, such as `2*x^2/(y*z)`. -/
def text : PrintStyle where
  raise base exponent := base ++ "^" ++ exponent
  times := "*"
  quotient numerator denominator factors :=
    if 1 < factors then numerator ++ "/(" ++ denominator ++ ")"
    else numerator ++ "/" ++ denominator

def braced (s : String) : String :=
  "\x7b" ++ s ++ "\x7d"

/-- LaTeX, such as `\frac{2 x^{2}}{y z}`. -/
def latex : PrintStyle where
  raise base exponent := base ++ "^" ++ braced exponent
  times := " "
  quotient numerator denominator _ := "\\frac" ++ braced numerator ++ braced denominator

end PrintStyle

/-- A printed term: whether it is the constant one, whether its coefficient is negative, and the
text of its magnitude. -/
structure PrintedTerm where
  isConstant : Bool
  negative : Bool
  text : String

namespace Polynomial

variable {K : Type} [Coefficient K]

open Scalar

/-- Prints the magnitude of a term whose atoms are already printed. -/
def printTerm (style : PrintStyle) (factors : List (String × Int)) (c : K) : PrintedTerm :=
  let power (base : String) (e : Int) : String :=
    if e = 1 then base else style.raise base (Number.ofInt e)
  let upper := (factors.filter fun (_, e) => 0 < e).map fun (base, e) => power base e
  let lower := (factors.filter fun (_, e) => e ≤ 0).map fun (base, e) => power base (-e)
  let magnitude := abs c
  let upper :=
    if !eq magnitude one || (upper.isEmpty && lower.isEmpty) then
      Coefficient.label magnitude :: upper
    else upper
  let numerator := if upper.isEmpty then "1" else style.times.intercalate upper
  { isConstant := factors.isEmpty
    negative := lt c zero
    text :=
      if lower.isEmpty then numerator
      else style.quotient numerator (style.times.intercalate lower) lower.length }

/-- Joins printed terms by signs, the constant term last. -/
def joinTerms (terms : List PrintedTerm) : String :=
  let ordered := terms.filter (!·.isConstant) ++ terms.filter (·.isConstant)
  match ordered with
  | [] => "0"
  | first :: others =>
    others.foldl (fun out t => out ++ (if t.negative then " - " else " + ") ++ t.text)
      ((if first.negative then "-" else "") ++ first.text)

def text (p : Polynomial K) : String :=
  joinTerms (p.map fun (m, c) => printTerm .text (m.map fun (a, e) => (a.key, e)) c)

end Polynomial

namespace Atom

variable {K : Type} [Coefficient K]

def ofCall (name : String) (arguments : List (Polynomial K)) : Atom K :=
  .call (name ++ "(" ++ ", ".intercalate (arguments.map Polynomial.text) ++ ")") name arguments

def ofGroup (body : Polynomial K) : Atom K :=
  .group ("(" ++ Polynomial.text body ++ ")") body

end Atom

namespace Latex

open PrintStyle (braced)

/-- A symbol with the digits at its end as a subscript. -/
def symbol (name : String) : String :=
  let cs := name.toList
  let digits := (cs.reverse.takeWhile Char.isDigit).reverse
  if digits.isEmpty || digits.length = cs.length then name
  else String.ofList (cs.take (cs.length - digits.length)) ++ "_" ++ braced (String.ofList digits)

/-- A text between parentheses that grow with it. -/
def parenthesized (s : String) : String :=
  "\\left(" ++ s ++ "\\right)"

def call (name : String) (arguments : List String) : String :=
  match name, arguments with
  | "sqrt", [a] => "\\sqrt" ++ braced a
  | "abs", [a] => "\\left|" ++ a ++ "\\right|"
  | "pow", [a, b] => parenthesized a ++ "^" ++ braced b
  | name, arguments =>
    let body := braced (parenthesized (", ".intercalate arguments))
    if ["sin", "cos", "tan", "tanh", "exp", "log"].contains name then "\\" ++ name ++ body
    else "\\operatorname" ++ braced name ++ body

variable {K : Type} [Coefficient K]

mutual

def atom : Atom K → String
  | .symbol name => symbol name
  | .call _ name arguments => call name (polynomials arguments)
  | .group _ body => parenthesized (Polynomial.joinTerms (terms body))

def polynomials : List (List (List (Atom K × Int) × K)) → List String
  | [] => []
  | p :: ps => Polynomial.joinTerms (terms p) :: polynomials ps

def terms : List (List (Atom K × Int) × K) → List PrintedTerm
  | [] => []
  | (m, c) :: p => Polynomial.printTerm .latex (factors m) c :: terms p

/-- The factors of a product in LaTeX, with their exponents. -/
def factors : List (Atom K × Int) → List (String × Int)
  | [] => []
  | (a, e) :: m => (atom a, e) :: factors m

end

end Latex

def Polynomial.latex {K : Type} [Coefficient K] (p : Polynomial K) : String :=
  joinTerms (Latex.terms p)

end SymbolicRegression
