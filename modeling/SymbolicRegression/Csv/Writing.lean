/-!
# Writing comma-separated values

A field is put in quotes only where it has to be. A record of one empty field is quoted as well,
because an empty line would hold no record.
-/

namespace SymbolicRegression

namespace Csv

def isSpecial (c : Char) : Bool :=
  c == ',' || c == '"' || c == '\n' || c == '\r'

/-- The text in quotes, every quote in it doubled. -/
def quoted (s : String) : String :=
  String.ofList ('"' :: s.toList.flatMap (fun c => if c = '"' then ['"', '"'] else [c]) ++ ['"'])

def field (s : String) : String :=
  if s.any isSpecial then quoted s else s

/-- A record as it is written, with the line end. -/
def line : List String → String
  | [""] => quoted "" ++ "\n"
  | fields => ",".intercalate (fields.map field) ++ "\n"

end Csv

end SymbolicRegression
