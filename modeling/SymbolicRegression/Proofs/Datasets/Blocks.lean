import SymbolicRegression.Proofs.Datasets.Rows

/-!
# Splitting by alternating blocks

`n` rows are cut into blocks of `n / blocks` rows; the even blocks are for training, the odd ones
are held out, and what is left behind the last full block is in neither part.

Which rows a part gets is computed block by block. `blockRows_eq_filter` says the same without
blocks: the part with a parity is made of those rows below the last full block whose block number
has this parity, in the order of the data set. It is an induction on the number of blocks, of which
only the last has to be looked at, and order, membership and the rows that are dropped are then read
off the filter.
-/

namespace SymbolicRegression

namespace Dataset

theorem filter_block (size b parity : Nat) :
    ((List.range size).map fun i => b * size + i).filter (fun i => i / size % 2 == parity) =
      if b % 2 == parity then (List.range size).map fun i => b * size + i else [] := by
  have number : ∀ i ∈ (List.range size).map fun i => b * size + i, i / size = b := by
    intro i h
    obtain ⟨j, hj, rfl⟩ := List.mem_map.1 h
    have small : j < size := List.mem_range.1 hj
    rw [Nat.mul_comm, Nat.mul_add_div (by omega), Nat.div_eq_of_lt small, Nat.add_zero]
  split
  · next even =>
    rw [List.filter_eq_self]
    intro i h
    rw [number i h]
    exact even
  · next odd =>
    rw [List.filter_eq_nil_iff]
    intro i h
    rw [number i h]
    exact odd

theorem blockRows_eq_filter (n blocks parity : Nat) :
    blockRows n blocks parity =
      (List.range (blocks * (n / blocks))).filter fun i => i / (n / blocks) % 2 == parity := by
  rw [blockRows]
  generalize n / blocks = size
  induction blocks with
  | zero => simp
  | succ b ih =>
    rw [List.range_succ, List.filter_append, List.flatMap_append, ih, Nat.succ_mul,
      List.range_add, List.filter_append, filter_block, List.filter_singleton, cond_eq_ite]
    split <;> simp

theorem mem_blockRows {n blocks parity i : Nat} :
    i ∈ blockRows n blocks parity ↔
      i < blocks * (n / blocks) ∧ i / (n / blocks) % 2 = parity := by
  simp [blockRows_eq_filter]

theorem pairwise_blockRows (n blocks parity : Nat) :
    (blockRows n blocks parity).Pairwise (· < ·) := by
  rw [blockRows_eq_filter]
  exact List.pairwise_lt_range.filter _

/-- The rows of a part of a split into blocks. -/
def partRows (d : Dataset) (blocks parity : Nat) : List (Fin d.rowCount) :=
  (blockRows d.rowCount blocks parity).pmap Fin.mk fun _ h => lt_of_mem_blockRows h

theorem mem_partRows {d : Dataset} {blocks parity : Nat} {i : Fin d.rowCount} :
    i ∈ d.partRows blocks parity ↔
      i.val < blocks * (d.rowCount / blocks) ∧ i.val / (d.rowCount / blocks) % 2 = parity := by
  rw [← mem_blockRows, partRows, List.mem_pmap]
  constructor
  · rintro ⟨row, h, rfl⟩
    exact h
  · intro h
    exact ⟨i, h, rfl⟩

theorem pairwise_partRows (d : Dataset) (blocks parity : Nat) :
    (d.partRows blocks parity).Pairwise (· < ·) := by
  rw [partRows, List.pairwise_pmap]
  exact (pairwise_blockRows _ _ _).imp fun h _ _ => h

theorem splitByBlocks_eq {d : Dataset} {blocks : Nat} (h : 2 ≤ blocks ∧ blocks ≤ d.rowCount) :
    d.splitByBlocks blocks =
      .ok (d.select (d.partRows blocks 0), d.select (d.partRows blocks 1)) := by
  rw [splitByBlocks, if_neg (by omega), pickRows_eq_select (map_val_pmap _),
    pickRows_eq_select (map_val_pmap _)]
  rfl

theorem splitByBlocks_eq_error {d : Dataset} {blocks : Nat} {e : DatasetError} :
    d.splitByBlocks blocks = .error e ↔
      e = .invalidSplit d.rowCount blocks ∧ (blocks < 2 ∨ d.rowCount < blocks) := by
  rw [splitByBlocks]
  split
  · next refused =>
    rw [Except.error.injEq]
    exact ⟨fun h => ⟨h.symm, refused⟩, fun h => h.1.symm⟩
  · next accepted =>
    simp only [reduceCtorEq, false_iff]
    exact fun h => accepted h.2

/-- A row below the last full block is in exactly one of the parts, and there once. -/
theorem count_partRows (d : Dataset) (blocks : Nat) (i : Fin d.rowCount) :
    (d.partRows blocks 0).count i + (d.partRows blocks 1).count i =
      if i.val < blocks * (d.rowCount / blocks) then 1 else 0 := by
  have once : ∀ parity, (d.partRows blocks parity).Nodup := fun parity =>
    (d.pairwise_partRows blocks parity).imp Fin.ne_of_lt
  rw [(once 0).count, (once 1).count]
  simp only [mem_partRows]
  grind

/-- A split into blocks is refused exactly when there are fewer than two blocks or more blocks than
rows. Otherwise a row of the full blocks is in exactly one of the parts, by the parity of its block,
the rows behind them are in neither, and no part is empty or out of order. -/
theorem splitByBlocks_parts (d : Dataset) (blocks : Nat) :
    (∀ e, d.splitByBlocks blocks = .error e ↔
      e = .invalidSplit d.rowCount blocks ∧ (blocks < 2 ∨ d.rowCount < blocks)) ∧
    (2 ≤ blocks ∧ blocks ≤ d.rowCount →
      ∃ train test trainRows testRows,
        d.splitByBlocks blocks = .ok (train, test) ∧
        d.Selects trainRows train ∧ d.Selects testRows test ∧
        trainRows.Pairwise (· < ·) ∧ testRows.Pairwise (· < ·) ∧
        0 < train.rowCount ∧ 0 < test.rowCount ∧
        (∀ i : Fin d.rowCount, i.val < blocks * (d.rowCount / blocks) →
          trainRows.count i + testRows.count i = 1 ∧
          (i ∈ trainRows ↔ i.val / (d.rowCount / blocks) % 2 = 0) ∧
          (i ∈ testRows ↔ i.val / (d.rowCount / blocks) % 2 = 1)) ∧
        ∀ i : Fin d.rowCount, i ∉ trainRows ∧ i ∉ testRows ↔
          d.rowCount - d.rowCount % blocks ≤ i.val) := by
  refine ⟨fun e => splitByBlocks_eq_error, fun h => ?_⟩
  have train := selects_select d (d.partRows blocks 0)
  have test := selects_select d (d.partRows blocks 1)
  have size : 0 < d.rowCount / blocks := Nat.div_pos h.2 (by omega)
  have full : blocks * (d.rowCount / blocks) = d.rowCount - d.rowCount % blocks :=
    Nat.mul_div_self_eq_mod_sub_self
  have two : 2 * (d.rowCount / blocks) ≤ blocks * (d.rowCount / blocks) :=
    Nat.mul_le_mul_right _ h.1
  refine ⟨_, _, _, _, splitByBlocks_eq h, train, test, d.pairwise_partRows blocks 0,
    d.pairwise_partRows blocks 1, ?_, ?_, ?_, ?_⟩
  · -- the first row of all is in the first block
    have first : ⟨0, by omega⟩ ∈ d.partRows blocks 0 := by
      rw [mem_partRows]
      exact ⟨show 0 < _ by omega, by rw [Nat.zero_div]⟩
    rw [train.rowCount]
    exact List.length_pos_of_mem first
  · -- and the second block begins behind a whole block
    have second : ⟨d.rowCount / blocks, by omega⟩ ∈ d.partRows blocks 1 := by
      rw [mem_partRows]
      exact ⟨show d.rowCount / blocks < _ by omega, by rw [Nat.div_self size]⟩
    rw [test.rowCount]
    exact List.length_pos_of_mem second
  · intro i inside
    rw [count_partRows, if_pos inside, mem_partRows, mem_partRows]
    exact ⟨rfl, and_iff_right inside, and_iff_right inside⟩
  · intro i
    rw [mem_partRows, mem_partRows, ← full]
    omega

theorem fiveSamples_splitByBlocks :
    (2 ≤ 2 ∧ 2 ≤ fiveSamples.rowCount) ∧
    ∃ train test trainRows testRows,
      fiveSamples.splitByBlocks 2 = .ok (train, test) ∧
      fiveSamples.Selects trainRows train ∧ fiveSamples.Selects testRows test ∧
      (∀ i : Fin 5, i.val < 4 → trainRows.count i + testRows.count i = 1) ∧
      (4 : Fin 5) ∉ trainRows ∧ (4 : Fin 5) ∉ testRows := by
  have h : 2 ≤ 2 ∧ 2 ≤ fiveSamples.rowCount := ⟨by decide, by decide⟩
  obtain ⟨train, test, trainRows, testRows, hok, htrain, htest, -, -, -, -, once, dropped⟩ :=
    (splitByBlocks_parts fiveSamples 2).2 h
  obtain ⟨last, last'⟩ := (dropped (4 : Fin 5)).2 (by decide)
  exact ⟨h, train, test, trainRows, testRows, hok, htrain, htest,
    fun i hi => (once i hi).1, last, last'⟩

end Dataset

end SymbolicRegression
