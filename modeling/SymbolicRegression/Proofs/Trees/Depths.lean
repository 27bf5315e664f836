import SymbolicRegression.Proofs.Trees.Listing

/-!
# Depths in a tree and in its listing

How deep a node lies is plain in a tree and has to be worked out in a listing: from the left by
counting the places that each node opens, from the right by taking heights from a stack. Both give
what the tree shows. As with values, the induction for the reader from the left is about a listing
with something after it, and about the places that are still open behind the tree.
-/

namespace SymbolicRegression

namespace Tree

mutual

/-- The number of levels; a lone leaf has one. -/
def height : Tree → Nat
  | node _ ts => heightAll ts + 1

/-- The number of levels of the tallest tree in a row. -/
def heightAll : List Tree → Nat
  | [] => 0
  | t :: ts => max (height t) (heightAll ts)

end

mutual

/-- The depth of every node in preorder, where the root lies at depth `d`. -/
def depths : Tree → Nat → List Nat
  | node _ ts, d => d :: depthsAll ts (d + 1)

def depthsAll : List Tree → Nat → List Nat
  | [], _ => []
  | t :: ts, d => depths t d ++ depthsAll ts d

end

theorem heightAll_le_iff {ts : List Tree} {n : Nat} :
    heightAll ts ≤ n ↔ ∀ t ∈ ts, t.height ≤ n := by
  induction ts with
  | nil => simp [heightAll]
  | cons t ts ih => rw [heightAll, Nat.max_le, ih, List.forall_mem_cons]

mutual

theorem length_depths : ∀ (t : Tree) (d : Nat), (t.depths d).length = t.preorder.length
  | node n ts, d => by
      rw [depths, preorder, List.length_cons, List.length_cons, length_depthsAll]

theorem length_depthsAll :
    ∀ (ts : List Tree) (d : Nat), (depthsAll ts d).length = (preorderAll ts).length
  | [], _ => by rw [depthsAll, preorderAll, List.length_nil, List.length_nil]
  | t :: ts, d => by
      rw [depthsAll, preorderAll, List.length_append, List.length_append, length_depths t,
        length_depthsAll ts]

end

mutual

/-- No node lies below the last level. -/
theorem lt_of_mem_depths : ∀ (t : Tree) {d x : Nat}, x ∈ t.depths d → x < d + t.height
  | node n ts, d, x, h => by
      rw [depths, List.mem_cons] at h
      rw [height]
      rcases h with rfl | h
      · omega
      · have hrow := lt_of_mem_depthsAll ts h
        omega

theorem lt_of_mem_depthsAll :
    ∀ (ts : List Tree) {d x : Nat}, x ∈ depthsAll ts d → x < d + heightAll ts
  | [], d, x, h => by
      rw [depthsAll] at h
      cases h
  | t :: ts, d, x, h => by
      rw [depthsAll, List.mem_append] at h
      rw [heightAll]
      rcases h with h | h
      · have hfirst := lt_of_mem_depths t h
        omega
      · have hrest := lt_of_mem_depthsAll ts h
        omega

end

theorem foldl_max_eq (heights : List Nat) :
    ∀ a : Nat, heights.foldl max a = max a (heights.foldl max 0) := by
  induction heights with
  | nil => exact fun a => (Nat.max_zero a).symm
  | cons h heights ih =>
      intro a
      rw [List.foldl_cons, List.foldl_cons, ih (max a h), ih (max 0 h), Nat.zero_max,
        Nat.max_assoc]

mutual

/-- The height is what the fold of heights computes. -/
theorem fold_height : ∀ {t : Tree}, t.Fits →
    t.fold (fun _ => 1) (fun _ heights => heights.foldl max 0 + 1) = t.height
  | node n ts, ⟨harity, hall⟩ => by
      rw [fold, height]
      split
      · next hzero =>
          obtain rfl : ts = [] := List.eq_nil_of_length_eq_zero (harity.symm.trans hzero)
          rw [heightAll]
      · rw [foldl_foldAll_height hall]

theorem foldl_foldAll_height : ∀ {ts : List Tree}, FitsAll ts →
    (foldAll (fun _ => 1) (fun _ heights => heights.foldl max 0 + 1) ts).foldl max 0 =
      heightAll ts
  | [], _ => by
      rw [foldAll, heightAll]
      rfl
  | t :: ts, ⟨ht, hts⟩ => by
      rw [foldAll, heightAll, List.foldl_cons, foldl_max_eq, foldl_foldAll_height hts,
        fold_height ht, Nat.zero_max]

end

end Tree

namespace Preorder

open SymbolicRegression.Tree

theorem height?_preorder {t : Tree} (h : t.Fits) : height? t.preorder = some t.height := by
  rw [height?, fold?_preorder h, fold_height h]

mutual

theorem depthsFrom?_preorder : ∀ (t : Tree), t.Fits →
    ∀ (d : Nat) (pending : List Nat) (rest : List Node),
      depthsFrom? (d :: pending) (t.preorder ++ rest) =
        (depthsFrom? pending rest).map (t.depths d ++ ·)
  | .node n ts, ⟨harity, hall⟩, d, pending, rest => by
      rw [Tree.preorder, List.cons_append, depthsFrom?, harity,
        depthsFrom?_preorderAll ts hall, Option.map_map, depths]
      rfl

theorem depthsFrom?_preorderAll : ∀ (ts : List Tree), FitsAll ts →
    ∀ (d : Nat) (pending : List Nat) (rest : List Node),
      depthsFrom? (List.replicate ts.length d ++ pending) (preorderAll ts ++ rest) =
        (depthsFrom? pending rest).map (depthsAll ts d ++ ·)
  | [], _, d, pending, rest => by
      rw [preorderAll, depthsAll]
      exact Option.map_id'.symm
  | t :: ts, ⟨ht, hts⟩, d, pending, rest => by
      rw [preorderAll, depthsAll, List.append_assoc, List.length_cons, List.replicate_succ,
        List.cons_append, depthsFrom?_preorder t ht, depthsFrom?_preorderAll ts hts,
        Option.map_map]
      congr 1
      funext ds
      exact (List.append_assoc _ _ _).symm

end

/-- The depths of a listing are those of the tree. -/
theorem depths?_preorder {t : Tree} (h : t.Fits) : depths? t.preorder = some (t.depths 0) := by
  rw [depths?, ← List.append_nil t.preorder, depthsFrom?_preorder t h, depthsFrom?, Option.map_some,
    List.append_nil]

end Preorder

end SymbolicRegression
