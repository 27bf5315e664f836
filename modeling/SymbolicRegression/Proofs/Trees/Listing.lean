import SymbolicRegression.Node.Preorder
import SymbolicRegression.Node.Tree

/-!
# Trees and their listings

A listing forgets where the children of a node end; the arities bring it back. Both readers of a
sequence recover the tree, each in its own direction. From the left, a tree fills one open place, and
a row of trees as many as it has trees. From the right, a tree adds one value to the stack, and a row
of trees the values of its trees, the leftmost topmost. So either way a statement about a whole
listing becomes one about a listing with something after it, which is what the induction carries.
-/

namespace SymbolicRegression

namespace Tree

variable {α : Type}

mutual

/-- Every node has as many children as its arity asks for. -/
def Fits : Tree → Prop
  | node n ts => n.arity = ts.length ∧ FitsAll ts

def FitsAll : List Tree → Prop
  | [] => True
  | t :: ts => Fits t ∧ FitsAll ts

end

mutual

/-- The value of a tree by recursion: a node without children is a leaf, and any other takes the
values of its children. -/
def fold (leaf : Node → α) (branch : Node → List α → α) : Tree → α
  | node n ts => if n.arity = 0 then leaf n else branch n (foldAll leaf branch ts)

def foldAll (leaf : Node → α) (branch : Node → List α → α) : List Tree → List α
  | [] => []
  | t :: ts => fold leaf branch t :: foldAll leaf branch ts

end

theorem foldAll_eq_map {leaf : Node → α} {branch : Node → List α → α} (ts : List Tree) :
    foldAll leaf branch ts = ts.map (fold leaf branch) := by
  induction ts with
  | nil => rfl
  | cons t ts ih => rw [foldAll, ih, List.map_cons]

theorem length_foldAll {leaf : Node → α} {branch : Node → List α → α} (ts : List Tree) :
    (foldAll leaf branch ts).length = ts.length := by
  rw [foldAll_eq_map, List.length_map]

end Tree

namespace Preorder

open SymbolicRegression.Tree

/-! ## Places, from the left -/

mutual

theorem fills_preorder :
    ∀ (t : Tree), t.Fits → ∀ (places : Nat) (rest : List Node),
      fills (places + 1) (t.preorder ++ rest) = fills places rest
  | .node n ts, h, places, rest => by
      obtain ⟨harity, hall⟩ := h
      rw [Tree.preorder, List.cons_append, fills, harity]
      exact fills_preorderAll ts hall places rest

theorem fills_preorderAll :
    ∀ (ts : List Tree), FitsAll ts → ∀ (places : Nat) (rest : List Node),
      fills (places + ts.length) (preorderAll ts ++ rest) = fills places rest
  | [], _, places, rest => by rw [preorderAll, List.nil_append, List.length_nil, Nat.add_zero]
  | t :: ts, ⟨ht, hts⟩, places, rest => by
      rw [preorderAll, List.append_assoc, List.length_cons, ← Nat.add_assoc,
        fills_preorder t ht, fills_preorderAll ts hts]

end

/-- A tree's listing lists exactly one tree. -/
theorem isValid_preorder {t : Tree} (h : t.Fits) : isValid t.preorder = true := by
  rw [isValid, ← List.append_nil t.preorder, fills_preorder t h]
  rfl

/-! ## One tree for a listing -/

mutual

/-- Where a tree ends in a listing is settled by the arities, so no other tree is listed there. -/
theorem eq_of_preorder_append :
    ∀ {t u : Tree}, t.Fits → u.Fits → ∀ {rest rest' : List Node},
      t.preorder ++ rest = u.preorder ++ rest' → t = u ∧ rest = rest'
  | .node n ts, .node m us, ht, hu, rest, rest', h => by
      rw [Tree.preorder, Tree.preorder, List.cons_append, List.cons_append, List.cons.injEq] at h
      obtain ⟨rfl, hrow⟩ := h
      obtain ⟨rfl, hrest⟩ :=
        eq_of_preorderAll_append (ht.1.symm.trans hu.1) ht.2 hu.2 hrow
      exact ⟨rfl, hrest⟩

theorem eq_of_preorderAll_append :
    ∀ {ts us : List Tree}, ts.length = us.length → FitsAll ts → FitsAll us →
      ∀ {rest rest' : List Node},
        preorderAll ts ++ rest = preorderAll us ++ rest' → ts = us ∧ rest = rest'
  | [], [], _, _, _, rest, rest', h => ⟨rfl, h⟩
  | t :: ts, u :: us, hlen, ht, hu, rest, rest', h => by
      rw [preorderAll, preorderAll, List.append_assoc, List.append_assoc] at h
      obtain ⟨rfl, hrow⟩ := eq_of_preorder_append ht.1 hu.1 h
      obtain ⟨rfl, hrest⟩ := eq_of_preorderAll_append (Nat.succ.inj hlen) ht.2 hu.2 hrow
      exact ⟨rfl, hrest⟩

end

theorem preorder_injective {t u : Tree} (ht : t.Fits) (hu : u.Fits)
    (h : t.preorder = u.preorder) : t = u :=
  (eq_of_preorder_append ht hu (congrArg (· ++ []) h)).1

/-! ## Values, from the right -/

section Fold

variable {α : Type} {leaf : Node → α} {branch : Node → List α → α}

theorem reduce_cons (n : Node) (nodes : List Node) :
    reduce leaf branch (n :: nodes) = (reduce leaf branch nodes).bind (push leaf branch n) :=
  rfl

mutual

theorem reduce_preorder :
    ∀ (t : Tree), t.Fits → ∀ {rest : List Node} {stack : List α},
      reduce leaf branch rest = some stack →
      reduce leaf branch (t.preorder ++ rest) = some (t.fold leaf branch :: stack)
  | .node n ts, h, rest, stack, hrest => by
      obtain ⟨harity, hall⟩ := h
      rw [Tree.preorder, List.cons_append, reduce_cons, reduce_preorderAll ts hall hrest,
        Option.bind_some, push, Tree.fold]
      split
      · next hzero =>
          obtain rfl : ts = [] := List.eq_nil_of_length_eq_zero (harity.symm.trans hzero)
          rfl
      · have hlen : (foldAll leaf branch ts).length = n.arity := by
          rw [length_foldAll, harity]
        rw [if_neg (by rw [List.length_append]; omega), List.take_left' hlen,
          List.drop_left' hlen]

theorem reduce_preorderAll :
    ∀ (ts : List Tree), FitsAll ts → ∀ {rest : List Node} {stack : List α},
      reduce leaf branch rest = some stack →
      reduce leaf branch (preorderAll ts ++ rest) = some (foldAll leaf branch ts ++ stack)
  | [], _, rest, stack, hrest => by
      rw [preorderAll, List.nil_append, hrest, foldAll, List.nil_append]
  | t :: ts, ⟨ht, hts⟩, rest, stack, hrest => by
      rw [preorderAll, List.append_assoc, reduce_preorder t ht (reduce_preorderAll ts hts hrest),
        foldAll, List.cons_append]

end

/-- The fold of a listing is the recursion over its tree. -/
theorem fold?_preorder {t : Tree} (h : t.Fits) :
    fold? leaf branch t.preorder = some (t.fold leaf branch) := by
  have hreduce : reduce leaf branch (t.preorder ++ []) = some [t.fold leaf branch] :=
    reduce_preorder t h rfl
  rw [fold?, ← List.append_nil t.preorder, hreduce]

end Fold

end Preorder

end SymbolicRegression
