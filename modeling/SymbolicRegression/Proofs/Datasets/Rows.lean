import Mathlib.Data.List.FinRange
import Mathlib.Data.Option.Basic
import SymbolicRegression.Dataset

/-!
# What a part of a data set holds

A data set keeps its columns apart: the features, the targets and the weights are lists of their
own, and picking rows goes through each of them. What has to be said of a part is about rows,
though: the target and the weight that stand at a place of the part are those of the row whose
features stand there.

So a data set is read as the list of its samples, and `Selects d rows part` says that a part is
made of the given rows of `d`, in the given order. Everything that picks rows is `select` for some
list of rows, and `selects_select` is the one place where the columns are looked at one by one.
-/

namespace SymbolicRegression

/-- One row of a data set. -/
structure Sample where
  features : List Float
  target : Float
  weight : Option Float

theorem get_pick {α : Type} {xs : List α} {places : List Nat}
    {inRange : ∀ i ∈ places, i < xs.length} {k : Fin (pick xs places inRange).length}
    {row : Fin xs.length} (h : places[k.val]? = some row.val) :
    (pick xs places inRange).get k = xs.get row := by
  obtain ⟨bound, place⟩ := List.getElem?_eq_some_iff.1 h
  rw [List.get_eq_getElem, List.get_eq_getElem]
  simp only [pick, List.getElem_pmap, place]

theorem map_val_pmap {n : Nat} {places : List Nat} (inRange : ∀ i ∈ places, i < n) :
    (places.pmap Fin.mk inRange).map Fin.val = places := by
  rw [List.map_pmap]
  exact List.pmap_eq_self.2 fun _ _ => rfl

namespace Dataset

def sample (d : Dataset) (i : Fin d.rowCount) : Sample where
  features := d.features.rows.get i
  target := d.target.get (i.cast d.target_length.symm)
  weight := d.weights.pmap (fun w h => w.get (i.cast h.symm)) d.weights_length

/-- The rows of a data set, in their order. -/
def samples (d : Dataset) : List Sample := (List.finRange d.rowCount).map d.sample

theorem length_samples (d : Dataset) : d.samples.length = d.rowCount := by
  simp [samples]

theorem getElem_samples {d : Dataset} {k : Nat} (h : k < d.samples.length) :
    d.samples[k] = d.sample ⟨k, d.length_samples ▸ h⟩ := by
  simp [samples]

/-- What is read off each row is a column, if it has the entry of the row at every place. -/
theorem map_samples {α : Type} {d : Dataset} {f : Sample → α} {column : List α}
    (hlength : column.length = d.rowCount)
    (h : ∀ i, f (d.sample i) = column.get (i.cast hlength.symm)) : d.samples.map f = column := by
  refine List.ext_getElem ?_ fun k h₁ h₂ => ?_
  · rw [List.length_map, length_samples, hlength]
  · rw [List.getElem_map, getElem_samples, h]
    rfl

theorem map_features_samples (d : Dataset) : d.samples.map Sample.features = d.features.rows :=
  map_samples rfl fun _ => rfl

theorem map_target_samples (d : Dataset) : d.samples.map Sample.target = d.target :=
  map_samples d.target_length fun _ => rfl

theorem map_weight_samples {d : Dataset} {w : List Float} (hw : d.weights = some w) :
    d.samples.map (fun s => s.weight.getD 0) = w := by
  refine map_samples (d.weights_length w hw) fun i => ?_
  obtain ⟨features, target, weights, names, target_length, weights_length⟩ := d
  obtain rfl : weights = some w := hw
  rfl

/-- The part that is made of the given rows. -/
def select (d : Dataset) (rows : List (Fin d.rowCount)) : Dataset :=
  d.pickRows (rows.map Fin.val) fun i h => by
    obtain ⟨row, -, rfl⟩ := List.mem_map.1 h
    exact row.isLt

theorem pickRows_eq_select {d : Dataset} {places : List Nat}
    {inRange : ∀ i ∈ places, i < d.rowCount} {rows : List (Fin d.rowCount)}
    (h : rows.map Fin.val = places) : d.pickRows places inRange = d.select rows := by
  subst h
  rfl

theorem rowCount_select {d : Dataset} {rows : List (Fin d.rowCount)} :
    (d.select rows).rowCount = rows.length :=
  Matrix.rowCount_pickRows.trans (List.length_map ..)

/-- The row of the part that stands at place `k` is the row of the data set that was asked for at
that place, with all of its columns. -/
theorem sample_select {d : Dataset} {rows : List (Fin d.rowCount)} {k : Nat}
    (h : k < rows.length) :
    (d.select rows).sample ⟨k, rowCount_select ▸ h⟩ = d.sample rows[k] := by
  have place : (rows.map Fin.val)[k]? = some rows[k].val := by
    rw [List.getElem?_map, List.getElem?_eq_getElem h, Option.map_some]
  obtain ⟨features, target, weights, names, target_length, weights_length⟩ := d
  cases weights with
  | none =>
    simp only [sample, select, pickRows, Sample.mk.injEq]
    exact ⟨get_pick place, get_pick place, rfl⟩
  | some w =>
    simp only [sample, select, pickRows, Sample.mk.injEq]
    exact ⟨get_pick place, get_pick place, congrArg some (get_pick place)⟩

/-- A part is made of the given rows, with the columns and the names of the whole. -/
structure Selects (d : Dataset) (rows : List (Fin d.rowCount)) (part : Dataset) : Prop where
  samples : part.samples = rows.map d.sample
  rowCount : part.rowCount = rows.length
  columns : part.features.columns = d.features.columns
  weighted : part.weights.isSome = d.weights.isSome
  names : part.variableNames = d.variableNames

theorem selects_select (d : Dataset) (rows : List (Fin d.rowCount)) :
    d.Selects rows (d.select rows) where
  samples := by
    refine List.ext_getElem ?_ fun k h₁ h₂ => ?_
    · rw [length_samples, rowCount_select, List.length_map]
    · rw [getElem_samples, List.getElem_map]
      exact sample_select (by simpa using h₂)
  rowCount := rowCount_select
  columns := rfl
  weighted := by simp [select, pickRows]
  names := rfl

/-- Five samples, of which every other one has no weight. -/
def fiveSamples : Dataset where
  features := ⟨1, [[1], [2], [3], [4], [5]], by simp⟩
  target := [10, 20, 30, 40, 50]
  weights := some [1, 0, 1, 0, 1]
  variableNames := ["x1"]
  target_length := rfl
  weights_length := by simp [Matrix.rowCount]

end Dataset

end SymbolicRegression
