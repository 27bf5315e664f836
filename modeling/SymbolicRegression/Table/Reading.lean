import SymbolicRegression.Csv.Reading
import SymbolicRegression.Number.Reading
import SymbolicRegression.Table.Basic
import SymbolicRegression.Text.Quoted

/-!
# Reading tables

A table is read from the records of a file, row by row; the first fault in the order of the file is
the one that is reported. Without a header the columns are named by their positions.
-/

namespace SymbolicRegression

/-- Why a file holds no table. Rows are counted from one, columns from zero. -/
inductive TableError where
  | header (error : Csv.Error)
  | record (row : Nat) (error : Csv.Error)
  | cell (row column : Nat) (raw : String) (error : NumeralError)

namespace Table

def readRow (width row : Nat) (r : Csv.Record) : Except TableError (Vector Float width) := do
  let texts ← (r.row width).mapError (.record row)
  texts.mapFinIdxM fun column raw _ => (Numeral.read raw).mapError (.cell row column raw)

/-- The numbers of rows, the first of which has the given number. -/
def readRows (width : Nat) :
    (first : Nat) → List Csv.Record → Except TableError (List (Vector Float width))
  | _, [] => .ok []
  | row, r :: rs => do
    let cells ← readRow width row r
    return cells :: (← readRows width (row + 1) rs)

def ofRows {width : Nat} (headers : Vector String width) (rows : List (Vector Float width)) :
    Table where
  headers := headers.toList
  cells := {
    columns := width
    rows := rows.map Vector.toList
    width := by
      intro row h
      obtain ⟨v, -, rfl⟩ := List.mem_map.1 h
      exact v.length_toList }
  headers_length := headers.length_toList

def positionalHeaders (width : Nat) : Vector String width :=
  Vector.ofFn fun i => s!"col{i}"

/-- The table that records hold. Without records there are no columns. -/
def ofRecords (hasHeader : Bool) : List Csv.Record → Except TableError Table
  | [] => .ok (ofRows (positionalHeaders 0) [])
  | first :: rest => do
    let width := first.fields.size
    if hasHeader then
      let headers ← first.header.mapError .header
      return ofRows headers (← readRows width 1 rest)
    else
      return ofRows (positionalHeaders width) (← readRows width 1 (first :: rest))

def ofBytes (hasHeader : Bool) (bytes : List UInt8) : Except TableError Table :=
  ofRecords hasHeader (Csv.records bytes)

end Table

end SymbolicRegression
