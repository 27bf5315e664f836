import SymbolicRegression.Json.Basic

/-!
# Writing JSON

A document is written on one line, or with two spaces of indentation per level.
-/

namespace SymbolicRegression

namespace Json

/-- The way a character is written between quotes: quotes, backslashes and control characters are
escaped. -/
def escape (c : Char) : List Char :=
  if c = '"' then ['\\', '"']
  else if c = '\\' then ['\\', '\\']
  else if c = '\n' then ['\\', 'n']
  else if c = '\r' then ['\\', 'r']
  else if c = '\t' then ['\\', 't']
  else if c.toNat = 0x08 then ['\\', 'b']
  else if c.toNat = 0x0C then ['\\', 'f']
  else if c.toNat < 0x20 then
    ['\\', 'u', '0', '0', Nat.digitChar (c.toNat / 16), Nat.digitChar (c.toNat % 16)]
  else [c]

def quoted (s : String) : String :=
  String.ofList ('"' :: s.toList.flatMap escape ++ ['"'])

def braced (s : String) : String :=
  "\x7b" ++ s ++ "\x7d"

mutual

def compact : Json → String
  | .null => "null"
  | .bool b => if b then "true" else "false"
  | .number numeral => numeral
  | .string s => quoted s
  | .array items => "[" ++ ",".intercalate (compactAll items) ++ "]"
  | .object entries => braced (",".intercalate (compactEntries entries))

def compactAll : List Json → List String
  | [] => []
  | j :: js => compact j :: compactAll js

def compactEntries : List (String × Json) → List String
  | [] => []
  | (name, j) :: es => (quoted name ++ ":" ++ compact j) :: compactEntries es

end

/-- A line break and the indentation of a level. -/
def lineBreak (level : Nat) : String :=
  "\n" ++ String.ofList (List.replicate (2 * level) ' ')

/-- Written items, one to a line, between brackets; nothing stands between empty ones. -/
def block (level : Nat) (opening closing : String) (items : List String) : String :=
  if items.isEmpty then opening ++ closing
  else
    opening ++ lineBreak (level + 1) ++ ("," ++ lineBreak (level + 1)).intercalate items
      ++ lineBreak level ++ closing

mutual

/-- The document over several lines, starting at a level of indentation. -/
def prettyAt : Nat → Json → String
  | level, .array items => block level "[" "]" (prettyAll (level + 1) items)
  | level, .object entries => block level "\x7b" "\x7d" (prettyEntries (level + 1) entries)
  | _, .null => "null"
  | _, .bool b => if b then "true" else "false"
  | _, .number numeral => numeral
  | _, .string s => quoted s

def prettyAll : Nat → List Json → List String
  | _, [] => []
  | level, j :: js => prettyAt level j :: prettyAll level js

def prettyEntries : Nat → List (String × Json) → List String
  | _, [] => []
  | level, (name, j) :: es =>
    (quoted name ++ ": " ++ prettyAt level j) :: prettyEntries level es

end

def pretty (j : Json) : String :=
  prettyAt 0 j

end Json

end SymbolicRegression
