import SymbolicRegression.Number.Text
import SymbolicRegression.Text.Quoted

/-!
# Tokens

The words of the text notation. A token remembers where it stands, counted in bytes of the UTF-8
form of the source.
-/

namespace SymbolicRegression

inductive TokenKind where
  | number (value : Float)
  | name (text : String)
  | leftParen
  | rightParen
  | comma
  | plus
  | minus
  | doubleStar
  | star
  | slash
  | caret
  | endOfInput

namespace TokenKind

def describe : TokenKind → String
  | number value => "number " ++ Number.plain value
  | name text => "identifier " ++ Text.quoted text
  | leftParen => "'('"
  | rightParen => "')'"
  | comma => "','"
  | plus => "'+'"
  | minus => "'-'"
  | doubleStar => "'**'"
  | star => "'*'"
  | slash => "'/'"
  | caret => "'^'"
  | endOfInput => "end of input"

end TokenKind

/-- A token and the bytes that it covers, the end excluded. -/
structure Token where
  kind : TokenKind
  start : Nat
  stop : Nat

inductive ParseError where
  | invalidCharacter (text : String) (position : Nat)
  | unexpectedToken (expected : String) (found : TokenKind) (position : Nat)
  | empty

namespace ParseError

def message : ParseError → String
  | invalidCharacter text position =>
    s!"unexpected character {Text.quoted text} at {position}"
  | unexpectedToken expected found position =>
    s!"expected {expected}, found {found.describe} at {position}"
  | empty => "empty expression"

end ParseError

end SymbolicRegression
