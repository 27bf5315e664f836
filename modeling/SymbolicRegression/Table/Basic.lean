import SymbolicRegression.Dataset

/-!
# Tables

A table holds numbers in named columns. A data set is made from a table by selecting the columns
of the features, of the target and, perhaps, of the weights; the features keep the order of the
selection and the rows the order of the table.
-/

namespace SymbolicRegression

namespace Matrix

def column (m : Matrix) (j : Fin m.columns) : List Float :=
  m.rows.attach.map fun row => row.1.get (j.cast (m.width row.1 row.2).symm)

theorem length_column {m : Matrix} {j : Fin m.columns} : (m.column j).length = m.rowCount := by
  simp [column, rowCount]

def pickColumns (m : Matrix) (places : List (Fin m.columns)) : Matrix where
  columns := places.length
  rows := m.rows.attach.map fun row =>
    places.map fun j => row.1.get (j.cast (m.width row.1 row.2).symm)
  width := by
    intro row h
    obtain ⟨-, -, rfl⟩ := List.mem_map.1 h
    exact List.length_map _

theorem rowCount_pickColumns {m : Matrix} {places : List (Fin m.columns)} :
    (m.pickColumns places).rowCount = m.rowCount := by
  simp [pickColumns, rowCount]

end Matrix

structure Table where
  headers : List String
  cells : Matrix
  headers_length : headers.length = cells.columns

namespace Table

abbrev width (t : Table) : Nat := t.cells.columns

def header (t : Table) (j : Fin t.width) : String :=
  t.headers.get (j.cast t.headers_length.symm)

end Table

/-- The columns that make up a data set, of a table with so many columns. -/
structure Selection (width : Nat) where
  features : List (Fin width)
  target : Fin width
  weights : Option (Fin width)

def Table.dataset (t : Table) (s : Selection t.width) : Dataset where
  features := t.cells.pickColumns s.features
  target := t.cells.column s.target
  weights := s.weights.map t.cells.column
  variableNames := s.features.map t.header
  target_length := Matrix.length_column.trans Matrix.rowCount_pickColumns.symm
  weights_length := by
    intro w h
    obtain ⟨j, -, rfl⟩ := Option.map_eq_some_iff.1 h
    exact Matrix.length_column.trans Matrix.rowCount_pickColumns.symm

end SymbolicRegression
