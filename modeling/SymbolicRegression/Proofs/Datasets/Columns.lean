import SymbolicRegression.CommandLine.Run
import SymbolicRegression.Proofs.Datasets.Selectors
import SymbolicRegression.Proofs.Results

/-!
# Which columns make up a data set

A request selects the target, the weights and the features by texts, and a data set takes its columns
from a table by these. Selecting is a sequence of steps of which each may fail, so what is selected is
said once, of the whole selection: `Chooses` holds of exactly one selection where selecting succeeds,
and of none where it fails. What the data set holds is then said cell by cell, since the table is read
by columns and the features are kept by rows.
-/

namespace SymbolicRegression

/-! ## Selections -/

namespace Selection

variable {width : Nat} {target : Fin width} {weights : Option (Fin width)}

theorem mem_otherColumns {j : Fin width} :
    j ∈ otherColumns target weights ↔ j ≠ target ∧ weights ≠ some j := by
  rw [otherColumns, List.mem_filter, decide_eq_true_eq, and_iff_right (List.mem_finRange j)]

/-- The other columns are those, and in their order. -/
theorem otherColumns_eq_iff {features : List (Fin width)} :
    otherColumns target weights = features ↔
      features.Pairwise (· < ·) ∧ ∀ j, j ∈ features ↔ j ≠ target ∧ weights ≠ some j := by
  have hsorted : (otherColumns target weights).Pairwise (· < ·) :=
    (List.pairwise_lt_finRange width).filter _
  constructor
  · rintro rfl
    exact ⟨hsorted, fun j => mem_otherColumns⟩
  · rintro ⟨hfeatures, hmem⟩
    refine List.Perm.eq_of_pairwise (fun a b _ _ hab hba => absurd hab hba.asymm) hsorted hfeatures ?_
    rw [List.perm_ext_iff_of_nodup hsorted.nodup hfeatures.nodup]
    exact fun j => mem_otherColumns.trans (hmem j).symm

theorem check_eq_ok_iff {s : Selection width} {u : Unit} :
    s.check = .ok u ↔
      s.features ≠ [] ∧ ∀ j ∈ s.features, j ≠ s.target ∧ s.weights ≠ some j := by
  rw [check]
  split
  · next hempty =>
    rw [List.isEmpty_iff] at hempty
    exact iff_of_false (fun h => nomatch h) fun h => h.1 hempty
  · next hempty =>
    rw [List.isEmpty_iff] at hempty
    rw [and_iff_right hempty, forM_eq_ok_iff]
    refine forall₂_congr fun j _ => ?_
    split
    · next htarget => exact iff_of_false (fun h => nomatch h) fun h => h.1 htarget
    split
    · next hweights => exact iff_of_false (fun h => nomatch h) fun h => h.2 hweights
    · next htarget hweights => exact iff_of_true rfl ⟨htarget, hweights⟩

end Selection

/-! ## Selecting columns -/

/-- Two rows of steps, one after the other, are a row of steps. -/
theorem exists_forall₂_iff {α β γ : Type} {R : α → β → Prop} {S : β → γ → Prop} {xs : List α}
    {zs : List γ} :
    (∃ ys, List.Forall₂ R xs ys ∧ List.Forall₂ S ys zs) ↔
      List.Forall₂ (fun x z => ∃ y, R x y ∧ S y z) xs zs := by
  induction xs generalizing zs with
  | nil =>
      simp only [List.forall₂_nil_left_iff, exists_eq_left]
  | cons x xs ih =>
      rw [List.forall₂_cons_left_iff]
      constructor
      · rintro ⟨ys, hxs, hys⟩
        cases hxs with
        | cons hxy hxs =>
            cases hys with
            | cons hyz hys => exact ⟨_, _, ⟨_, hxy, hyz⟩, ih.mp ⟨_, hxs, hys⟩, rfl⟩
      · rintro ⟨z, zs, ⟨y, hxy, hyz⟩, hxs, rfl⟩
        obtain ⟨ys, hxs, hys⟩ := ih.mpr hxs
        exact ⟨y :: ys, .cons hxy hxs, .cons hyz hys⟩

namespace CommandLine

open Arguments

variable {a : Arguments} {t : Table} {what : String}

theorem column_eq_ok_iff {text : String} {j : Fin t.width} :
    a.column t what text = .ok j ↔ t.Selects a.oneBased text j := by
  simp only [column, bind_eq_ok_iff, mapError_eq_ok_iff, Table.selects_iff]

theorem featureColumns_eq_ok_iff {texts : List String} {js : List (Fin t.width)} :
    a.featureColumns t texts = .ok js ↔ List.Forall₂ (t.Selects a.oneBased) texts js := by
  simp only [featureColumns, bind_eq_ok_iff, mapM_eq_ok_iff, mapError_eq_ok_iff,
    exists_forall₂_iff, ← Table.selects_iff]

/-- The columns of the features: those that the texts select one by one, or else all columns but the
target and the weights, in the order of the table. -/
def FeaturesOf (t : Table) (oneBased : Bool) (target : Fin t.width) (weights : Option (Fin t.width)) :
    Option (List String) → List (Fin t.width) → Prop
  | some texts, features => List.Forall₂ (t.Selects oneBased) texts features
  | none, features =>
      features.Pairwise (· < ·) ∧ ∀ j, j ∈ features ↔ j ≠ target ∧ weights ≠ some j

/-- The columns that a request asks for. -/
structure Request.Chooses (r : Request) (t : Table) (s : Selection t.width) : Prop where
  target : t.Selects r.arguments.oneBased r.target s.target
  weights : Option.Rel (t.Selects r.arguments.oneBased) r.arguments.weights s.weights
  features : FeaturesOf t r.arguments.oneBased s.target s.weights r.arguments.features s.features
  nonempty : s.features ≠ []
  apart : ∀ j ∈ s.features, j ≠ s.target ∧ s.weights ≠ some j

/-- Selecting succeeds with the columns that are asked for, and only where there are such. -/
theorem Request.select_eq_ok_iff {r : Request} {s : Selection t.width} :
    r.select t = .ok s ↔ r.Chooses t s := by
  -- either way to the features ends in the same checks
  have hchooses : (∃ target, t.Selects r.arguments.oneBased r.target target ∧
      ∃ weights, Option.Rel (t.Selects r.arguments.oneBased) r.arguments.weights weights ∧
      ∃ features, FeaturesOf t r.arguments.oneBased target weights r.arguments.features features ∧
      (∃ _ : Unit, features ≠ [] ∧ ∀ j ∈ features, j ≠ target ∧ weights ≠ some j) ∧
      ⟨features, target, weights⟩ = s) ↔ r.Chooses t s := by
    constructor
    · rintro ⟨target, htarget, weights, hweights, features, hfeatures, ⟨-, hne, hapart⟩, rfl⟩
      exact ⟨htarget, hweights, hfeatures, hne, hapart⟩
    · rintro ⟨htarget, hweights, hfeatures, hne, hapart⟩
      exact ⟨_, htarget, _, hweights, _, hfeatures, ⟨(), hne, hapart⟩, rfl⟩
  rw [← hchooses, select]
  simp only [bind_eq_ok_iff, column_eq_ok_iff, option_mapM_eq_ok_iff]
  cases r.arguments.features with
  | some texts =>
      simp only [bind_eq_ok_iff, pure_eq_ok_iff, mapError_eq_ok_iff, featureColumns_eq_ok_iff,
        Selection.check_eq_ok_iff, exists_and_right, FeaturesOf]
  | none =>
      simp only [bind_eq_ok_iff, pure_eq_ok_iff, mapError_eq_ok_iff, Selection.check_eq_ok_iff,
        exists_and_right, FeaturesOf, ← Selection.otherColumns_eq_iff]

theorem length_mintVariables (n : Nat) (registry : Registry) (supply : Supply) :
    (mintVariables n registry supply).1.length = n := by
  induction n generalizing registry supply with
  | zero => rfl
  | succ n ih =>
      rw [mintVariables]
      exact congrArg (· + 1) (ih _ _)

/-- A report is about the columns that were chosen: it names the target, and has one variable for
each feature, beside its header. -/
theorem Request.exists_chooses_of_report {r : Request} {report : Report}
    (h : r.report t = .ok report) :
    ∃ s, r.Chooses t s ∧ report.target = t.header s.target ∧
      ∃ names : List String, names.length = s.features.length ∧
        report.legend = names.zip (s.features.map t.header) := by
  rw [Request.report] at h
  obtain ⟨s, hselect, h⟩ := bind_eq_ok_iff.mp h
  refine ⟨s, select_eq_ok_iff.mp (mapError_eq_ok_iff.mp hselect), ?_⟩
  obtain ⟨registry, -, h⟩ := bind_eq_ok_iff.mp h
  obtain ⟨-, -, h⟩ := bind_eq_ok_iff.mp h
  split at h
  · cases h
  · cases h
  · cases h
    exact ⟨rfl, _, length_mintVariables _ _ _, rfl⟩

end CommandLine

/-! ## Cells -/

namespace Matrix

variable {m : Matrix}

/-- The entry in a row and a column, where there is one. -/
def cell? (m : Matrix) (i j : Nat) : Option Float :=
  m.rows[i]?.bind (·[j]?)

theorem getElem?_column {j : Fin m.columns} (i : Nat) : (m.column j)[i]? = m.cell? i j := by
  rw [column, cell?]
  rcases Nat.lt_or_ge i m.rows.length with hi | hi
  · simp [hi, m.width _ (List.getElem_mem hi)]
  · simp [hi]

theorem cell?_pickColumns {places : List (Fin m.columns)} (i k : Nat) :
    (m.pickColumns places).cell? i k = places[k]?.bind fun j => m.cell? i j := by
  rw [pickColumns, cell?]
  simp only [cell?]
  rcases Nat.lt_or_ge i m.rows.length with hi | hi
  · simp [hi, m.width _ (List.getElem_mem hi), Option.map_eq_bind]
  · simp [hi]

end Matrix

/-- A data set has its columns from these columns of the table, row by row. -/
structure Table.Fills (t : Table) (s : Selection t.width) (d : Dataset) : Prop where
  rows : d.rowCount = t.cells.rowCount
  columns : d.features.columns = s.features.length
  features : ∀ i k, d.features.cell? i k = s.features[k]?.bind fun j => t.cells.cell? i j
  target : ∀ i, d.target[i]? = t.cells.cell? i s.target
  weights :
    Option.Rel (fun w (j : Fin t.width) => ∀ i, w[i]? = t.cells.cell? i j) d.weights s.weights
  variableNames : ∀ k : Nat, d.variableNames[k]? = s.features[k]?.map t.header

theorem Table.fills_dataset (t : Table) (s : Selection t.width) : t.Fills s (t.dataset s) where
  rows := Matrix.rowCount_pickColumns
  columns := rfl
  features := Matrix.cell?_pickColumns
  target := Matrix.getElem?_column
  weights := by
    show Option.Rel _ (s.weights.map t.cells.column) s.weights
    cases s.weights with
    | none => exact .none
    | some j => exact .some Matrix.getElem?_column
  variableNames k := List.getElem?_map

namespace CommandLine

/-- Selecting succeeds with one selection where a request chooses columns, and otherwise fails. The
target and the weights are the columns that their texts select. The features are the columns that
their texts select, in the order of the texts, or else all columns but the target and the weights, in
the order of the table; there is a feature, and none is the target or the weights. The data set has
its cells, row by row, from these columns, and the names of its variables are their headers. A name
is looked up as the first header that is equal, or where there is none as the only one that is equal
up to letter case, and it is an error where none or several are. -/
theorem Request.select_dataset (r : Request) (t : Table) :
    (∀ s, r.select t = .ok s ↔ r.Chooses t s) ∧
    (∀ s, t.Fills s (t.dataset s)) ∧
    ∀ name : String,
      (∀ j, t.resolve (.name name) = .ok j ↔ t.Finds name j) ∧
      ((∃ e, t.resolve (.name name) = .error e) ↔
        (∀ j, ¬t.Resembles name j) ∨ t.IsAmbiguous name) := by
  refine ⟨fun s => select_eq_ok_iff, t.fills_dataset, fun name =>
    ⟨fun j => Table.resolve_name_eq_ok_iff, ?_⟩⟩
  simp only [Table.resolve_name_eq_error_iff, exists_or, exists_eq_left]

/-- Two columns, then a target and weights. -/
def fourColumns : Table where
  headers := ["a", "b", "target", "w"]
  cells := ⟨4, [[1, 2, 3, 4], [5, 6, 7, 8]], by decide⟩
  headers_length := rfl

deriving instance DecidableEq for Selection

def firstTwo : Selection fourColumns.width :=
  (⟨[0, 1], 2, some 3⟩ : Selection 4)

/-- The target is found up to letter case and the weights by their position, counted from one, and
the features are what is left. -/
theorem Request.select_dataset_fourColumns :
    let r : Request := ⟨"", " TARGET ", { oneBased := true, weights := some "4" }⟩
    r.Chooses fourColumns firstTwo ∧
      (fourColumns.dataset firstTwo).features.cell? 1 0 = some 5 := by
  intro r
  have hselect : (r.select fourColumns).toOption = some firstTwo := by decide +kernel
  obtain ⟨hchooses, hfills, -⟩ := select_dataset r fourColumns
  exact ⟨(hchooses _).mp (toOption_eq_some_iff.mp hselect), (hfills _).features 1 0⟩

end CommandLine

end SymbolicRegression
