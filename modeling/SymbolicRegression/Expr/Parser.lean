import SymbolicRegression.Expr.Basic
import SymbolicRegression.Expr.Lexer

/-!
# Parsing

Infix operations bind by strength. Each has a binding power towards the operand on its left and one
towards the operand on its right, and an expression is read with the least power that an operation
must have to belong to it: after an operand, operations are taken as long as their left power
reaches the least one, and the right power of each is the least one for its right operand. Sums
and products have a greater power on the right and so group from the left; powers have a greater one
on the left and group from the right. A sign is an operand itself; what it is put in front of is read
with a least power between those of products and powers.

Each function takes the tokens that are left and gives back the ones that it did not use. That they
become fewer bounds the recursion, together with the order of the functions where one hands all its
tokens to the next.
-/

namespace SymbolicRegression

namespace BinaryOp

/-- How strongly the operation binds the operand on its left and the one on its right. -/
def bindingPower : BinaryOp → Nat × Nat
  | add => (1, 2)
  | sub => (1, 2)
  | mul => (3, 4)
  | div => (3, 4)
  | pow => (8, 7)

end BinaryOp

namespace Parser

/-- Tokens that are fewer than the given ones. -/
abbrev Shorter (tokens : List Token) : Type :=
  { rest : List Token // rest.length < tokens.length }

/-- Tokens that are not more than the given ones. -/
abbrev NotLonger (tokens : List Token) : Type :=
  { rest : List Token // rest.length ≤ tokens.length }

/-- The error at the first of the tokens that are left; `stop` is the end of the text. -/
def unexpected (stop : Token) (expected : String) (tokens : List Token) : ParseError :=
  let found := tokens.headD stop
  .unexpectedToken expected found.kind found.start

def closing (stop : Token) (tokens : List Token) : Except ParseError (Shorter tokens) :=
  match tokens with
  | [] => .error (unexpected stop TokenKind.rightParen.describe [])
  | t :: rest =>
    match t.kind with
    | .rightParen => .ok ⟨rest, by simp⟩
    | _ => .error (unexpected stop TokenKind.rightParen.describe (t :: rest))

def operation? : TokenKind → Option BinaryOp
  | .plus => some .add
  | .minus => some .sub
  | .star => some .mul
  | .slash => some .div
  | .caret => some .pow
  | .doubleStar => some .pow
  | _ => none

def signPower : Nat := 5

mutual

/-- An expression of operations that bind at least as strongly as `least`. -/
def expression (stop : Token) (least : Nat) (tokens : List Token) :
    Except ParseError (Expr Float × Shorter tokens) :=
  match operand stop tokens with
  | .error e => .error e
  | .ok (left, r) =>
    match extend stop least left r.1 with
    | .error e => .error e
    | .ok (e, r') => .ok (e, ⟨r'.1, Nat.lt_of_le_of_lt r'.2 r.2⟩)
  termination_by (tokens.length, 2)

/-- Goes on behind a left operand for as long as the operations bind strongly enough. -/
def extend (stop : Token) (least : Nat) (left : Expr Float) (tokens : List Token) :
    Except ParseError (Expr Float × NotLonger tokens) :=
  match tokens with
  | [] => .ok (left, ⟨[], Nat.le_refl _⟩)
  | t :: rest =>
    match operation? t.kind with
    | none => .ok (left, ⟨t :: rest, Nat.le_refl _⟩)
    | some op =>
      if op.bindingPower.1 < least then .ok (left, ⟨t :: rest, Nat.le_refl _⟩)
      else
        match expression stop op.bindingPower.2 rest with
        | .error e => .error e
        | .ok (right, r) =>
          match extend stop least (.binary op left right) r.1 with
          | .error e => .error e
          | .ok (e, r') => .ok (e, ⟨r'.1, by have := r.2; have := r'.2; simp; omega⟩)
  termination_by (tokens.length, 0)

/-- A number, a name, a call, a sum in parentheses, or a sign in front of an expression. A plus sign
leaves no trace. -/
def operand (stop : Token) (tokens : List Token) :
    Except ParseError (Expr Float × Shorter tokens) :=
  match tokens with
  | [] => .error (unexpected stop "an expression" [])
  | t :: rest =>
    match t.kind with
    | .number value => .ok (.number value, ⟨rest, by simp⟩)
    | .minus =>
      match expression stop signPower rest with
      | .error e => .error e
      | .ok (e, r) => .ok (.neg e, ⟨r.1, by have := r.2; simp; omega⟩)
    | .plus =>
      match expression stop signPower rest with
      | .error e => .error e
      | .ok (e, r) => .ok (e, ⟨r.1, by have := r.2; simp; omega⟩)
    | .leftParen =>
      match expression stop 0 rest with
      | .error e => .error e
      | .ok (e, r) =>
        match closing stop r.1 with
        | .error e => .error e
        | .ok r' => .ok (e, ⟨r'.1, by have := r.2; have := r'.2; simp; omega⟩)
    | .name name =>
      match rest with
      | [] => .ok (.name name, ⟨[], by simp⟩)
      | u :: rest' =>
        match u.kind with
        | .leftParen =>
          match arguments stop rest' with
          | .error e => .error e
          | .ok (es, r) => .ok (.call name es, ⟨r.1, by have := r.2; simp; omega⟩)
        | _ => .ok (.name name, ⟨u :: rest', by simp⟩)
    | _ => .error (unexpected stop "an expression" (t :: rest))
  termination_by (tokens.length, 1)

/-- The arguments of a call after its opening parenthesis, up to and with the closing one. -/
def arguments (stop : Token) (tokens : List Token) :
    Except ParseError (List (Expr Float) × Shorter tokens) :=
  match tokens with
  | [] => argumentRow stop []
  | t :: rest =>
    match t.kind with
    | .rightParen => .ok ([], ⟨rest, by simp⟩)
    | _ => argumentRow stop (t :: rest)
  termination_by (tokens.length, 4)

/-- At least one argument, separated by commas, and the closing parenthesis. -/
def argumentRow (stop : Token) (tokens : List Token) :
    Except ParseError (List (Expr Float) × Shorter tokens) :=
  match expression stop 0 tokens with
  | .error e => .error e
  | .ok (first, ⟨[], _⟩) => .error (unexpected stop TokenKind.rightParen.describe [])
  | .ok (first, ⟨t :: rest, h⟩) =>
    match t.kind with
    | .comma =>
      match argumentRow stop rest with
      | .error e => .error e
      | .ok (others, r) => .ok (first :: others, ⟨r.1, by have := r.2; simp at h; omega⟩)
    | _ =>
      match closing stop (t :: rest) with
      | .error e => .error e
      | .ok r => .ok ([first], ⟨r.1, Nat.lt_trans r.2 h⟩)
  termination_by (tokens.length, 3)
  decreasing_by
    · exact Prod.Lex.right _ (by omega)
    · exact Prod.Lex.left _ _ (by simp at h; omega)

end

/-- The expression that all the tokens together form. -/
def whole (stop : Token) (tokens : List Token) : Except ParseError (Expr Float) :=
  if tokens.isEmpty then .error .empty
  else
    match expression stop 0 tokens with
    | .error e => .error e
    | .ok (e, r) =>
      match r.1 with
      | [] => .ok e
      | t :: rest => .error (unexpected stop TokenKind.endOfInput.describe (t :: rest))

end Parser

def parse (source : String) : Except ParseError (Expr Float) :=
  match tokenize source with
  | .error e => .error e
  | .ok tokens => Parser.whole (Token.endOf source) tokens

end SymbolicRegression
