import SymbolicRegression.Expr.Token
import SymbolicRegression.Number.Reading

/-!
# Splitting a text into tokens

At each place the longest text that forms a token is taken. A number may have a fraction and an
exponent; the exponent belongs to it only if at least one digit follows, so `1e+x` is the number
`1`, the name `e`, a plus sign and the name `x`.
-/

namespace SymbolicRegression

namespace Lexer

/-- The characters that separate tokens and mean nothing. -/
def isSpace (c : Char) : Bool :=
  c == ' ' || c == '\t' || c == '\r' || c == '\n' || c == Char.ofNat 0x0C

def startsName (c : Char) : Bool :=
  ('A' ≤ c && c ≤ 'Z') || ('a' ≤ c && c ≤ 'z') || c == '_'

def continuesName (c : Char) : Bool :=
  startsName c || c.isDigit

/-- The number of characters of an optional sign at the start. -/
def signLength : List Char → Nat
  | '+' :: _ => 1
  | '-' :: _ => 1
  | _ => 0

/-- The number of characters of an exponent part at the start; zero if no digit follows. -/
def exponentLength : List Char → Nat
  | [] => 0
  | c :: rest =>
    if c == 'e' || c == 'E' then
      let sign := signLength rest
      let digits := (rest.drop sign).takeWhile Char.isDigit
      if digits.isEmpty then 0 else 1 + sign + digits.length
    else 0

/-- The number of characters of the longest number at the start; zero if there is none. -/
def numberLength (cs : List Char) : Nat :=
  let whole := (cs.takeWhile Char.isDigit).length
  let fraction := match cs.drop whole with
    | '.' :: rest => 1 + (rest.takeWhile Char.isDigit).length
    | _ => 0
  if whole = 0 && fraction ≤ 1 then 0
  else whole + fraction + exponentLength (cs.drop (whole + fraction))

/-- The longest token at the start and its length in characters, which is positive. -/
def longest? (cs : List Char) : Option (TokenKind × Nat) :=
  match cs with
  | [] => none
  | '(' :: _ => some (.leftParen, 1)
  | ')' :: _ => some (.rightParen, 1)
  | ',' :: _ => some (.comma, 1)
  | '+' :: _ => some (.plus, 1)
  | '-' :: _ => some (.minus, 1)
  | '*' :: '*' :: _ => some (.doubleStar, 2)
  | '*' :: _ => some (.star, 1)
  | '/' :: _ => some (.slash, 1)
  | '^' :: _ => some (.caret, 1)
  | c :: rest =>
    if startsName c then
      let text := c :: rest.takeWhile continuesName
      some (.name (String.ofList text), text.length)
    else
      let n := numberLength cs
      if n = 0 then none
      else (Numeral.unsigned? (cs.take n)).map fun value => (.number value, n)

def byteLength (cs : List Char) : Nat :=
  cs.foldr (fun c n => c.utf8Size + n) 0

/-- The tokens of a text whose first character stands at byte `position`. A character at which no
token starts is reported with its place. -/
def tokensFrom (position : Nat) (cs : List Char) : Except ParseError (List Token) :=
  match cs with
  | [] => .ok []
  | c :: rest =>
    if isSpace c then tokensFrom (position + c.utf8Size) rest
    else
      match longest? (c :: rest) with
      | none => .error (.invalidCharacter (String.ofList [c]) position)
      | some (kind, n) =>
        let stop := position + byteLength ((c :: rest).take n)
        match tokensFrom stop (rest.drop (n - 1)) with
        | .ok tokens => .ok (⟨kind, position, stop⟩ :: tokens)
        | .error e => .error e
  termination_by cs.length
  decreasing_by
    all_goals simp only [List.length_cons, List.length_drop]
    all_goals omega

end Lexer

/-- The tokens of a text, without the end of input. -/
def tokenize (source : String) : Except ParseError (List Token) :=
  Lexer.tokensFrom 0 source.toList

/-- The token that stands for the end of a text. -/
def Token.endOf (source : String) : Token :=
  ⟨.endOfInput, source.utf8ByteSize, source.utf8ByteSize⟩

end SymbolicRegression
