/-!
# Matrices of data

A matrix is a list of rows of one width. The width is kept apart from the rows, so that a matrix
without rows has one as well.
-/

namespace SymbolicRegression

structure Matrix where
  columns : Nat
  rows : List (List Float)
  width : ∀ row ∈ rows, row.length = columns

namespace Matrix

def rowCount (m : Matrix) : Nat := m.rows.length

/-- The matrix of these rows, if they all have the given width. -/
def ofRows? (columns : Nat) (rows : List (List Float)) : Option Matrix :=
  if h : ∀ row ∈ rows, row.length = columns then some ⟨columns, rows, h⟩ else none

end Matrix

def pick {α : Type} (xs : List α) (places : List Nat) (inRange : ∀ i ∈ places, i < xs.length) :
    List α :=
  places.pmap (fun i h => xs[i]) inRange

theorem length_pick {α : Type} {xs : List α} {places : List Nat}
    {inRange : ∀ i ∈ places, i < xs.length} : (pick xs places inRange).length = places.length := by
  simp [pick]

theorem mem_of_mem_pick {α : Type} {xs : List α} {places : List Nat}
    {inRange : ∀ i ∈ places, i < xs.length} {x : α} (h : x ∈ pick xs places inRange) : x ∈ xs := by
  simp only [pick, List.mem_pmap] at h
  obtain ⟨i, hi, rfl⟩ := h
  exact List.getElem_mem _

namespace Matrix

def pickRows (m : Matrix) (places : List Nat) (inRange : ∀ i ∈ places, i < m.rowCount) :
    Matrix where
  columns := m.columns
  rows := pick m.rows places inRange
  width := fun row h => m.width row (mem_of_mem_pick h)

theorem rowCount_pickRows {m : Matrix} {places : List Nat}
    {inRange : ∀ i ∈ places, i < m.rowCount} :
    (m.pickRows places inRange).rowCount = places.length :=
  length_pick

end Matrix

end SymbolicRegression
