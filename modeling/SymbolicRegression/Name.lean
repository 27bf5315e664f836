/-!
# Names

Free constants are recognised by their names: a `c` and a positive number without leading zeros.
Fresh names are a letter and a running number. The numbers are never handed out twice, because a
repeated name would make one parameter of two.
-/

namespace SymbolicRegression

namespace Name

/-- Is the name a `c` followed by a positive number without leading zeros? -/
def isConstant (name : String) : Bool :=
  match name.toList with
  | 'c' :: d :: ds => '1' ≤ d && d ≤ '9' && ds.all Char.isDigit
  | _ => false

def apostrophe : Char := Char.ofNat 0x27

/-- Drops every quotation mark, single or double, from a name. -/
def stripQuotes (name : String) : String :=
  String.ofList (name.toList.filter fun c => c != apostrophe && c != '"')

/-- A letter, or several, and a running number. -/
def numbered (stem : String) (n : Nat) : String :=
  stem ++ String.ofList (Nat.toDigits 10 n)

end Name

/-- A source of numbered names: the stem and how many names have been handed out. -/
structure NameCounter where
  stem : String
  minted : Nat
  deriving Repr, DecidableEq

namespace NameCounter

/-- The next name; numbering starts at one. -/
def mint (c : NameCounter) : String × NameCounter :=
  (Name.numbered c.stem (c.minted + 1), { c with minted := c.minted + 1 })

end NameCounter

/-- The two shared sources of names: constants `c1, c2, …` and variables `x1, x2, …`. -/
structure Supply where
  constantCounter : NameCounter := ⟨"c", 0⟩
  variableCounter : NameCounter := ⟨"x", 0⟩
  deriving Repr, DecidableEq

namespace Supply

def freshConstant (s : Supply) : String × Supply :=
  let (name, counter) := s.constantCounter.mint
  (name, { s with constantCounter := counter })

def freshVariable (s : Supply) : String × Supply :=
  let (name, counter) := s.variableCounter.mint
  (name, { s with variableCounter := counter })

end Supply

end SymbolicRegression
