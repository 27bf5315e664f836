import SymbolicRegression.Number.Reading
import SymbolicRegression.Table.Basic
import SymbolicRegression.Text.Blank
import SymbolicRegression.Text.Quoted

/-!
# Selecting columns

A selector is a header or the position of a column. A header is looked for as it is written first;
only if there is none, the one header that is equal up to letter case is taken. The columns of the
features may repeat, but neither the target nor the weights may be among them.
-/

namespace SymbolicRegression

inductive Selector where
  | name (name : String)
  | position (index : Nat)
  deriving Repr, DecidableEq

inductive SelectorError where
  | empty
  | zero (text : String)
  deriving Repr, DecidableEq

namespace SelectorError

def message : SelectorError → String
  | empty => "empty column selector"
  | zero text => s!"1-based column index {text} is invalid"

end SelectorError

inductive ColumnError where
  | outOfBounds (index columns : Nat)
  | unknown (name : String)
  | ambiguous (name : String)
  deriving Repr, DecidableEq

namespace ColumnError

def message : ColumnError → String
  | outOfBounds index columns => s!"column index {index} out of bounds (n_cols={columns})"
  | unknown name => s!"unknown column name {Text.quoted name}"
  | ambiguous name =>
    s!"ambiguous column name {Text.quoted name} (multiple case-insensitive matches)"

end ColumnError

inductive SelectionError where
  | noFeatures
  | targetAmongFeatures (column : Nat)
  | weightsAmongFeatures (column : Nat)
  deriving Repr, DecidableEq

namespace SelectionError

def message : SelectionError → String
  | noFeatures => "no feature columns selected for X (use --x to specify explicitly)"
  | targetAmongFeatures column => s!"X and y overlap at column index {column}"
  | weightsAmongFeatures column => s!"X and weights overlap at column index {column}"

end SelectionError

namespace Selector

/-- The selector that a text denotes: a position if the text is a number of at most 64 bits, and a
name otherwise. Positions are counted from zero, or from one if `oneBased`. -/
def read (oneBased : Bool) (text : String) : Except SelectorError Selector :=
  let text := Text.trim text
  if text.isEmpty then .error .empty
  else match Numeral.readNat? (Nat.pow 2 64) text with
    | none => .ok (.name text)
    | some n =>
      if oneBased then
        match n with
        | 0 => .error (.zero text)
        | n + 1 => .ok (.position n)
      else .ok (.position n)

end Selector

namespace Table

def resolve (t : Table) : Selector → Except ColumnError (Fin t.width)
  | .position i => if h : i < t.width then .ok ⟨i, h⟩ else .error (.outOfBounds i t.width)
  | .name name =>
    match (List.finRange t.width).find? fun j => t.header j == name with
    | some j => .ok j
    | none =>
      match (List.finRange t.width).filter fun j => Text.sameIgnoringCase (t.header j) name with
      | [] => .error (.unknown name)
      | [j] => .ok j
      | _ => .error (.ambiguous name)

end Table

namespace Selection

variable {width : Nat}

/-- All columns but the target and the weights. -/
def otherColumns (target : Fin width) (weights : Option (Fin width)) : List (Fin width) :=
  (List.finRange width).filter fun j => j ≠ target ∧ weights ≠ some j

/-- Refuses a selection without features and one whose features hold the target or the weights; the
first such feature is reported. -/
def check (s : Selection width) : Except SelectionError Unit :=
  if s.features.isEmpty then .error .noFeatures
  else s.features.forM fun j =>
    if j = s.target then .error (.targetAmongFeatures j)
    else if s.weights = some j then .error (.weightsAmongFeatures j)
    else .ok ()

end Selection

end SymbolicRegression
