/-!
# White space and letter case

White space here is the Unicode property of that name. Letter case is folded for ASCII letters
only, so that two names that differ in any other letter stay different.
-/

namespace SymbolicRegression

namespace Text

/-- Has the character the Unicode property `White_Space`? -/
def isBlank (c : Char) : Bool :=
  let n := c.toNat
  (0x9 ≤ n && n ≤ 0xD) || n == 0x20 || n == 0x85 || n == 0xA0 || n == 0x1680
    || (0x2000 ≤ n && n ≤ 0x200A) || n == 0x2028 || n == 0x2029 || n == 0x202F
    || n == 0x205F || n == 0x3000

def trim (s : String) : String :=
  String.ofList ((s.toList.dropWhile isBlank).reverse.dropWhile isBlank).reverse

/-- Turns the letters A to Z into small ones. -/
def lower (s : String) : String :=
  String.ofList (s.toList.map Char.toLower)

/-- Equality up to the case of the letters A to Z. -/
def sameIgnoringCase (s t : String) : Bool :=
  lower s == lower t

/-- Puts a text before the shorter ones: pads with spaces on the right up to `width` characters. -/
def padRight (width : Nat) (s : String) : String :=
  s ++ String.ofList (List.replicate (width - s.length) ' ')

end Text

end SymbolicRegression
