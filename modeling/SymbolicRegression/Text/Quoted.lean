import SymbolicRegression.Text.Printable

/-!
# Quoted text

Messages show names and raw input between double quotes. A quote and a backslash are escaped by a
backslash, the common control characters have letters of their own, and a character that cannot
be shown is written by its number.
-/

namespace SymbolicRegression

namespace Text

/-- The number of a character in braces: `\u{301}`. -/
def escapeByNumber (c : Char) : List Char :=
  ['\\', 'u', Char.ofNat 0x7B] ++ Nat.toDigits 16 c.toNat ++ [Char.ofNat 0x7D]

/-- The way a character is shown between double quotes. -/
def escape (c : Char) : List Char :=
  if c = Char.ofNat 0 then ['\\', '0']
  else if c = '\t' then ['\\', 't']
  else if c = '\r' then ['\\', 'r']
  else if c = '\n' then ['\\', 'n']
  else if c = '"' then ['\\', '"']
  else if c = '\\' then ['\\', '\\']
  else if extendsGrapheme c || !isPrintable c then escapeByNumber c
  else [c]

def quoted (s : String) : String :=
  String.ofList ('"' :: s.toList.flatMap escape ++ ['"'])

end Text

end SymbolicRegression
