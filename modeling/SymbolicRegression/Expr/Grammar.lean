import SymbolicRegression.Expr.Basic
import SymbolicRegression.Expr.Token

/-!
# The grammar of expressions

The notation in layers, the loosest first:

* a sum is a product, followed by any number of products with a sign before each;
* a product is a signed factor, followed by any number of signed factors with `*` or `/` before each;
* a signed factor is a power, or a sign in front of a signed factor;
* a power is an atom, alone or raised to a signed factor;
* an atom is a number, a name, a call, or a sum in parentheses.

A derivation is a tree with one constructor for each rule. It lists the tokens that it derives and
denotes an expression: sums and products group from the left, a plus sign in front of a factor
leaves no trace, and parentheses only group. Nothing here mentions how strongly an operation binds.
-/

namespace SymbolicRegression

namespace Grammar

/-- A sign between two products or in front of a factor. -/
inductive Sign where
  | plus
  | minus

inductive Scaling where
  | star
  | slash

/-- What stands between a base and its exponent. -/
inductive Raising where
  | caret
  | doubleStar

namespace Sign

def kind : Sign → TokenKind
  | plus => .plus
  | minus => .minus

def op : Sign → BinaryOp
  | plus => .add
  | minus => .sub

def apply : Sign → Expr Float → Expr Float
  | plus, e => e
  | minus, e => .neg e

end Sign

namespace Scaling

def kind : Scaling → TokenKind
  | star => .star
  | slash => .slash

def op : Scaling → BinaryOp
  | star => .mul
  | slash => .div

end Scaling

def Raising.kind : Raising → TokenKind
  | .caret => .caret
  | .doubleStar => .doubleStar

mutual

/-- A sum: its first product and the others. -/
inductive SumTree where
  | mk (first : ProductTree) (others : SumTail)

/-- The products of a sum after the first one. -/
inductive SumTail where
  | done
  | more (sign : Sign) (product : ProductTree) (others : SumTail)

/-- A product: its first factor and the others. -/
inductive ProductTree where
  | mk (first : SignedTree) (others : ProductTail)

/-- The factors of a product after the first one. -/
inductive ProductTail where
  | done
  | more (scaling : Scaling) (factor : SignedTree) (others : ProductTail)

/-- A power with any number of signs in front. -/
inductive SignedTree where
  | sign (sign : Sign) (factor : SignedTree)
  | power (power : PowerTree)

/-- An atom with or without an exponent. -/
inductive PowerTree where
  | bare (base : AtomTree)
  | raised (base : AtomTree) (raising : Raising) (exponent : SignedTree)

/-- What stands between the signs and operations. -/
inductive AtomTree where
  | number (value : Float)
  | name (name : String)
  | emptyCall (name : String)
  | call (name : String) (row : RowTree)
  | parens (sum : SumTree)

/-- The arguments of a call that has some. -/
inductive RowTree where
  | last (sum : SumTree)
  | more (sum : SumTree) (others : RowTree)

end

/-! ## The tokens of a derivation -/

mutual

def SumTree.kinds : SumTree → List TokenKind
  | .mk first others => first.kinds ++ others.kinds

def SumTail.kinds : SumTail → List TokenKind
  | .done => []
  | .more sign product others => sign.kind :: (product.kinds ++ others.kinds)

def ProductTree.kinds : ProductTree → List TokenKind
  | .mk first others => first.kinds ++ others.kinds

def ProductTail.kinds : ProductTail → List TokenKind
  | .done => []
  | .more scaling factor others => scaling.kind :: (factor.kinds ++ others.kinds)

def SignedTree.kinds : SignedTree → List TokenKind
  | .sign sign factor => sign.kind :: factor.kinds
  | .power power => power.kinds

def PowerTree.kinds : PowerTree → List TokenKind
  | .bare base => base.kinds
  | .raised base raising exponent => base.kinds ++ raising.kind :: exponent.kinds

def AtomTree.kinds : AtomTree → List TokenKind
  | .number value => [.number value]
  | .name name => [.name name]
  | .emptyCall name => [.name name, .leftParen, .rightParen]
  | .call name row => .name name :: .leftParen :: (row.kinds ++ [.rightParen])
  | .parens sum => .leftParen :: (sum.kinds ++ [.rightParen])

def RowTree.kinds : RowTree → List TokenKind
  | .last sum => sum.kinds
  | .more sum others => sum.kinds ++ .comma :: others.kinds

end

/-! ## The expression of a derivation -/

mutual

def SumTree.expr : SumTree → Expr Float
  | .mk first others => others.exprFrom first.expr

/-- Adds the products to what stands before them, from left to right. -/
def SumTail.exprFrom (left : Expr Float) : SumTail → Expr Float
  | .done => left
  | .more sign product others => others.exprFrom (.binary sign.op left product.expr)

def ProductTree.expr : ProductTree → Expr Float
  | .mk first others => others.exprFrom first.expr

/-- Multiplies what stands before the factors by them, from left to right. -/
def ProductTail.exprFrom (left : Expr Float) : ProductTail → Expr Float
  | .done => left
  | .more scaling factor others => others.exprFrom (.binary scaling.op left factor.expr)

def SignedTree.expr : SignedTree → Expr Float
  | .sign sign factor => sign.apply factor.expr
  | .power power => power.expr

def PowerTree.expr : PowerTree → Expr Float
  | .bare base => base.expr
  | .raised base _ exponent => .binary .pow base.expr exponent.expr

def AtomTree.expr : AtomTree → Expr Float
  | .number value => .number value
  | .name name => .name name
  | .emptyCall name => .call name []
  | .call name row => .call name row.exprs
  | .parens sum => sum.expr

def RowTree.exprs : RowTree → List (Expr Float)
  | .last sum => [sum.expr]
  | .more sum others => sum.expr :: others.exprs

end

end Grammar

end SymbolicRegression
