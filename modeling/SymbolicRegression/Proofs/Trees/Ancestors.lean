import SymbolicRegression.Proofs.Trees.Depths
import SymbolicRegression.Proofs.Trees.Subtrees

/-!
# Depths count the enclosing subtrees

The ancestors of a node can be read off the ends of subtrees: they are the nodes in front of it whose
subtrees reach beyond it. The depth that the reader from the left works out from the open places is
their number, and the height that the fold works out from the right is one more than the largest of
these depths.

Both are compared with the depths that the tree shows. Along a row of trees the ends of subtrees do
not cross from one tree to the next, so the count in a row is the count in one of its trees; and the
root of a tree reaches beyond every other node, so that it adds one to all of them.
-/

namespace SymbolicRegression

namespace Preorder

variable {n : Node} {nodes before after : List Node} {i : Nat}

/-- How many subtrees that start in front of the index reach beyond it. -/
def ancestors (nodes : List Node) (i : Nat) : Nat :=
  (List.range i).countP fun j => (subtreeEnd? nodes j).any fun stop => i < stop

theorem ancestors_append_left (h : isValid before = true) (hi : i < before.length)
    (after : List Node) : ancestors (before ++ after) i = ancestors before i := by
  refine List.countP_congr fun j hj => ?_
  obtain ⟨stop, hstop⟩ := exists_subtreeEnd? h (Nat.lt_trans (List.mem_range.mp hj) hi)
  rw [hstop, subtreeEnd?_append_left hstop]

/-- No subtree of a valid first part reaches beyond that part. -/
theorem ancestors_append_right (h : isValid before = true) (after : List Node) (i : Nat) :
    ancestors (before ++ after) (before.length + i) = ancestors after i := by
  have hbefore : (List.range before.length).countP
      (fun j => (subtreeEnd? (before ++ after) j).any fun stop => before.length + i < stop) = 0 := by
    rw [List.countP_eq_zero]
    intro j hj
    obtain ⟨stop, hstop⟩ := exists_subtreeEnd? h (List.mem_range.mp hj)
    have hle := le_of_subtreeEnd? hstop
    rw [subtreeEnd?_append_left hstop, Option.any_some, decide_eq_true_eq]
    omega
  rw [ancestors, List.range_add, List.countP_append, hbefore, Nat.zero_add, List.countP_map]
  refine List.countP_congr fun j _ => ?_
  rw [Function.comp_apply, subtreeEnd?_append_right]
  cases subtreeEnd? after j <;> simp

/-- The root reaches beyond every other node. -/
theorem ancestors_cons (h : isValid (n :: nodes) = true) (hi : i < nodes.length) :
    ancestors (n :: nodes) (i + 1) = ancestors nodes i + 1 := by
  have hshift : ∀ j, subtreeEnd? (n :: nodes) (j + 1) = (subtreeEnd? nodes j).map (1 + ·) := by
    intro j
    rw [Nat.add_comm]
    exact subtreeEnd?_append_right [n] nodes j
  rw [ancestors, List.range_succ_eq_map, List.countP_cons_of_pos, List.countP_map]
  · refine congrArg (· + 1) (List.countP_congr fun j _ => ?_)
    rw [Function.comp_apply, hshift]
    cases subtreeEnd? nodes j <;> simp [Nat.add_comm]
  · rw [subtreeEnd?_zero h, Option.any_some, decide_eq_true_eq, List.length_cons]
    omega

end Preorder

namespace Tree

open SymbolicRegression.Preorder

mutual

theorem depths_eq : ∀ (t : Tree), t.Fits → ∀ d : Nat,
    t.depths d = (List.range t.preorder.length).map fun i => d + ancestors t.preorder i
  | node n ts, h, d => by
      have hvalid : isValid (n :: preorderAll ts) = true := isValid_preorder h
      rw [depths, depthsAll_eq ts h.2, preorder, List.length_cons, List.range_succ_eq_map,
        List.map_cons, List.map_map]
      refine congrArg _ (List.map_congr_left fun i hi => ?_)
      rw [Function.comp_apply, ancestors_cons hvalid (List.mem_range.mp hi)]
      omega

theorem depthsAll_eq : ∀ (ts : List Tree), FitsAll ts → ∀ d : Nat,
    depthsAll ts d =
      (List.range (preorderAll ts).length).map fun i => d + ancestors (preorderAll ts) i
  | [], _, d => by
      rw [depthsAll, preorderAll]
      rfl
  | t :: ts, ⟨ht, hts⟩, d => by
      have hvalid := isValid_preorder ht
      rw [depthsAll, depths_eq t ht, depthsAll_eq ts hts, preorderAll, List.length_append,
        List.range_add, List.map_append, List.map_map]
      congr 1
      · refine List.map_congr_left fun i hi => ?_
        rw [ancestors_append_left hvalid (List.mem_range.mp hi)]
      · refine List.map_congr_left fun i _ => ?_
        rw [Function.comp_apply, ancestors_append_right hvalid]

end

mutual

/-- Some node lies on the last level. -/
theorem exists_mem_depths : ∀ (t : Tree) (d : Nat), ∃ x ∈ t.depths d, x + 1 = d + t.height
  | node n [], d => ⟨d, List.mem_cons_self, rfl⟩
  | node n (t :: ts), d => by
      obtain ⟨x, hx, hheight⟩ := exists_mem_depthsAll (t :: ts) (List.cons_ne_nil _ _) (d + 1)
      exact ⟨x, List.mem_cons_of_mem _ hx, by rw [height]; omega⟩

theorem exists_mem_depthsAll : ∀ (ts : List Tree), ts ≠ [] → ∀ d : Nat,
    ∃ x ∈ depthsAll ts d, x + 1 = d + heightAll ts
  | t :: ts, _, d => by
      rw [depthsAll, heightAll]
      by_cases htall : heightAll ts ≤ t.height
      · obtain ⟨x, hx, hheight⟩ := exists_mem_depths t d
        exact ⟨x, List.mem_append_left _ hx, by omega⟩
      · have hne : ts ≠ [] := by
          rintro rfl
          exact htall (Nat.zero_le _)
        obtain ⟨x, hx, hheight⟩ := exists_mem_depthsAll ts hne d
        exact ⟨x, List.mem_append_right _ hx, by omega⟩

end

theorem max?_depths (t : Tree) : (t.depths 0).max?.map (· + 1) = some t.height := by
  obtain ⟨deepest, hmem, hheight⟩ := exists_mem_depths t 0
  have hmax : (t.depths 0).max? = some deepest := by
    refine List.max?_eq_some_iff.mpr ⟨hmem, fun x hx => ?_⟩
    have hlt := lt_of_mem_depths t hx
    omega
  rw [hmax, Option.map_some, hheight, Nat.zero_add]

end Tree

namespace Preorder

/-- In a valid sequence every node has a depth, the number of subtrees that start in front of it and
reach beyond it, and the height is one more than the largest depth. -/
theorem depths_count_ancestors {nodes : List Node} (h : isValid nodes = true) :
    ∃ depths deepest, depths? nodes = some depths ∧ depths.length = nodes.length ∧
      (∀ i < nodes.length, depths[i]? = some (ancestors nodes i)) ∧
      depths.max? = some deepest ∧ height? nodes = some (deepest + 1) := by
  obtain ⟨t, hfits, rfl⟩ := isValid_iff.mp h
  obtain ⟨deepest, hdeepest, hheight⟩ := Option.map_eq_some_iff.mp t.max?_depths
  refine ⟨t.depths 0, deepest, depths?_preorder hfits, t.length_depths 0, fun i hi => ?_, hdeepest,
    by rw [height?_preorder hfits, hheight]⟩
  rw [Tree.depths_eq t hfits, List.getElem?_map, List.getElem?_range hi, Option.map_some,
    Nat.zero_add]

theorem depths_count_ancestors_nestedPick :
    isValid nestedPick = true ∧ depths? nestedPick = some [0, 1, 2, 2, 1, 1] ∧
      ancestors nestedPick 3 = 2 ∧ height? nestedPick = some 3 := by
  have hvalid : isValid nestedPick = true := by decide
  have hdepths : depths? nestedPick = some [0, 1, 2, 2, 1, 1] := by decide
  obtain ⟨depths, deepest, hread, -, hcount, hmax, hheight⟩ := depths_count_ancestors hvalid
  cases hdepths.symm.trans hread
  cases hmax
  exact ⟨hvalid, hdepths, (Option.some_inj.mp (hcount 3 (by decide))).symm, hheight⟩

end Preorder

end SymbolicRegression
