import SymbolicRegression.Matrix
import SymbolicRegression.Number.Rounding
import SymbolicRegression.Number.Text
import SymbolicRegression.Random.Shuffle

/-!
# Data sets

A data set has one row of features and one target per sample, and may weight the samples. It is
split into a training and a held-out part, either by alternating blocks of rows or by a shuffle; a
row keeps its target and its weight in every part.
-/

namespace SymbolicRegression

inductive DatasetError where
  | rowMismatch (what : String) (expected found : Nat)
  | invalidSplit (rows blocks : Nat)
  | invalidFraction (fraction : Float)

namespace DatasetError

def message : DatasetError → String
  | rowMismatch what expected found => s!"{what} has {found} rows, expected {expected}"
  | invalidSplit rows blocks => s!"cannot split {rows} rows into {blocks} blocks"
  | invalidFraction fraction =>
    "fraction must lie in (0, 1), got " ++ Number.plain fraction

end DatasetError

/-- Samples with their targets and, perhaps, their weights. -/
structure Dataset where
  features : Matrix
  target : List Float
  weights : Option (List Float)
  variableNames : List String
  target_length : target.length = features.rowCount
  weights_length : ∀ w, weights = some w → w.length = features.rowCount

namespace Dataset

def rowCount (d : Dataset) : Nat := d.features.rowCount

/-- A data set of these columns; the target is checked before the weights. -/
def create (features : Matrix) (target : List Float) (weights : Option (List Float))
    (variableNames : List String) : Except DatasetError Dataset :=
  if h : target.length = features.rowCount then
    match weights with
    | none => .ok ⟨features, target, none, variableNames, h, by simp⟩
    | some w =>
      if hw : w.length = features.rowCount then
        .ok ⟨features, target, some w, variableNames, h, by simpa using hw⟩
      else .error (.rowMismatch "weights" features.rowCount w.length)
  else .error (.rowMismatch "target" features.rowCount target.length)

/-- The samples at the given places, in the given order. -/
def pickRows (d : Dataset) (places : List Nat) (inRange : ∀ i ∈ places, i < d.rowCount) :
    Dataset where
  features := d.features.pickRows places inRange
  target := pick d.target places fun i h => by rw [d.target_length]; exact inRange i h
  weights := d.weights.attach.map fun w =>
    pick w.1 places fun i h => by
      rw [d.weights_length w.1 w.2]; exact inRange i h
  variableNames := d.variableNames
  target_length := length_pick.trans Matrix.rowCount_pickRows.symm
  weights_length := by
    intro w h
    simp only [Option.map_eq_some_iff] at h
    obtain ⟨v, -, rfl⟩ := h
    exact length_pick.trans Matrix.rowCount_pickRows.symm

/-- The samples at the given places; none if a place is out of range. -/
def pickRows? (d : Dataset) (places : List Nat) : Option Dataset :=
  if h : ∀ i ∈ places, i < d.rowCount then some (d.pickRows places h) else none

/-- The rows of the blocks with the given parity, where `n` rows are cut into `blocks` blocks of
equal size. Rows past the last full block belong to no block. -/
def blockRows (n blocks parity : Nat) : List Nat :=
  ((List.range blocks).filter fun b => b % 2 == parity).flatMap fun b =>
    (List.range (n / blocks)).map fun i => b * (n / blocks) + i

theorem lt_of_mem_blockRows {n blocks parity i : Nat} (h : i ∈ blockRows n blocks parity) :
    i < n := by
  simp only [blockRows, List.mem_flatMap, List.mem_filter, List.mem_range, List.mem_map] at h
  obtain ⟨b, ⟨hb, -⟩, j, hj, rfl⟩ := h
  have h₁ : (b + 1) * (n / blocks) ≤ blocks * (n / blocks) := Nat.mul_le_mul_right _ hb
  have h₂ : blocks * (n / blocks) ≤ n := Nat.mul_div_le n blocks
  have h₃ : (b + 1) * (n / blocks) = b * (n / blocks) + n / blocks := Nat.succ_mul _ _
  omega

/-- Cuts the rows into blocks; the even ones are for training and the odd ones are held out. -/
def splitByBlocks (d : Dataset) (blocks : Nat) : Except DatasetError (Dataset × Dataset) :=
  if blocks < 2 ∨ d.rowCount < blocks then .error (.invalidSplit d.rowCount blocks)
  else
    .ok (d.pickRows (blockRows d.rowCount blocks 0) fun _ h => lt_of_mem_blockRows h,
      d.pickRows (blockRows d.rowCount blocks 1) fun _ h => lt_of_mem_blockRows h)

/-- How many of `n` rows a fraction of them is, a half rounded up. -/
def trainingRows (n : Nat) (fraction : Float) : Nat :=
  min (Number.truncate (Number.roundHalfAway (Float.ofNat n * fraction))).toNat n

/-- Shuffles the rows and keeps a fraction of them for training. A fraction outside of `(0, 1)` is
refused before anything is drawn. -/
def splitShuffled {σ : Type} (d : Dataset) (fraction : Float) (index : Nat → σ → Nat × σ)
    (source : σ) : Except DatasetError (Dataset × Dataset) × σ :=
  if 0 < fraction ∧ fraction < 1 then
    let shuffled := shuffle index (List.range d.rowCount) source
    have inRange : ∀ i ∈ shuffled.1, i < d.rowCount := fun _ h =>
      List.mem_range.1 ((shuffle_perm index (List.range d.rowCount) source).mem_iff.1 h)
    let n := trainingRows d.rowCount fraction
    (.ok (d.pickRows (shuffled.1.take n) fun _ h => inRange _ (List.mem_of_mem_take h),
      d.pickRows (shuffled.1.drop n) fun _ h => inRange _ (List.mem_of_mem_drop h)), shuffled.2)
  else (.error (.invalidFraction fraction), source)

end Dataset

end SymbolicRegression
