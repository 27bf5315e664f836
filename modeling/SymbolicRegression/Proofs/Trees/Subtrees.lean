import Mathlib.Order.Interval.Set.Basic
import SymbolicRegression.Node.Preorder
import SymbolicRegression.Proofs.Trees.Sequences

/-!
# Subtrees as slices of a sequence

A subtree of a valid sequence is a slice of it: it starts at some index, and how far it reaches is
found by filling one place from there on. That scan looks only ahead, with a count of open places
that depends on all the arities it passes, and it has no bound of its own. What bounds it is that the
whole sequence is valid: behind any first part of it some number of places is open, the rest fills
these places exactly, and so it fills any smaller number of them somewhere before its end.

That number of places is all that the rest knows of what came first. So one slice that fills one
place may stand for another, and what a scan gives depends on nothing in front of its start and on
nothing behind its end.
-/

namespace SymbolicRegression

namespace Preorder

variable {nodes before after : List Node} {places more count start stop : Nat}

/-! ## Filling places -/

/-- Nodes that fill some of the places leave the others to the nodes behind them. -/
theorem fills_append (h : fills places before = true) (more : Nat) (after : List Node) :
    fills (places + more) (before ++ after) = fills more after := by
  induction before generalizing places with
  | nil =>
      cases places with
      | zero => rw [Nat.zero_add, List.nil_append]
      | succ places => cases h
  | cons n before ih =>
      cases places with
      | zero => cases h
      | succ places =>
          rw [fills] at h
          rw [List.cons_append, Nat.add_right_comm, fills, Nat.add_right_comm, ih h]

/-- What a first part means to the nodes behind it is how many places it leaves open. -/
theorem exists_places_behind (h : fills places (before ++ after) = true) :
    ∃ more, ∀ other, fills places (before ++ other) = fills more other := by
  induction before generalizing places with
  | nil => exact ⟨places, fun _ => rfl⟩
  | cons n before ih =>
      cases places with
      | zero => cases h
      | succ places => exact ih h

/-- Nodes that fill some places fill any smaller number of them on their way. -/
theorem exists_filling? (h : fills places nodes = true) {fewer : Nat} (hfewer : fewer ≤ places) :
    ∃ count, filling? fewer nodes = some count := by
  induction nodes generalizing places fewer with
  | nil =>
      cases places with
      | zero =>
          obtain rfl := Nat.le_zero.mp hfewer
          exact ⟨0, rfl⟩
      | succ places => cases h
  | cons n nodes ih =>
      cases fewer with
      | zero => exact ⟨0, rfl⟩
      | succ fewer =>
          cases places with
          | zero => cases hfewer
          | succ places =>
              rw [fills] at h
              obtain ⟨count, hcount⟩ :=
                ih h (Nat.add_le_add_right (Nat.le_of_succ_le_succ hfewer) n.arity)
              exact ⟨count + 1, by rw [filling?, hcount, Option.map_some]⟩

/-- A number of nodes fills the places if the slice of that length does. -/
theorem filling?_eq_some_iff :
    filling? places nodes = some count ↔
      count ≤ nodes.length ∧ fills places (nodes.take count) = true := by
  induction nodes generalizing places count with
  | nil => cases places <;> simp [filling?, fills, eq_comm]
  | cons n nodes ih =>
      cases places with
      | zero => cases count <;> simp [filling?, fills]
      | succ places =>
          cases count with
          | zero => simp [filling?, fills]
          | succ count => simp [filling?, fills, ih]

theorem filling?_append (h : filling? places before = some count) (after : List Node) :
    filling? places (before ++ after) = some count := by
  obtain ⟨hle, hfills⟩ := filling?_eq_some_iff.mp h
  rw [filling?_eq_some_iff, List.take_append_of_le_length hle, List.length_append]
  exact ⟨Nat.le_add_right_of_le hle, hfills⟩

/-! ## Where a subtree ends -/

theorem ne_nil_of_isValid (h : isValid nodes = true) : nodes ≠ [] := by
  rintro rfl
  cases h

theorem lt_of_isValid_extract (h : isValid (nodes.extract start stop) = true) : start < stop := by
  have hlength := List.length_pos_iff.mpr (ne_nil_of_isValid h)
  rw [List.extract_eq_take_drop, List.length_take] at hlength
  omega

/-- A subtree is the one slice from its start that is valid. -/
theorem subtreeEnd?_eq_some_iff :
    subtreeEnd? nodes start = some stop ↔
      stop ≤ nodes.length ∧ isValid (nodes.extract start stop) = true := by
  rw [subtreeEnd?, Option.map_eq_some_iff]
  constructor
  · rintro ⟨count, hcount, rfl⟩
    obtain ⟨hle, hfills⟩ := filling?_eq_some_iff.mp hcount
    have hlength := List.length_pos_iff.mpr (ne_nil_of_isValid hfills)
    rw [List.length_take, List.length_drop] at hlength
    rw [List.length_drop] at hle
    refine ⟨by omega, ?_⟩
    rw [List.extract_eq_take_drop, Nat.add_sub_cancel_left]
    exact hfills
  · rintro ⟨hle, hvalid⟩
    have hlt := lt_of_isValid_extract hvalid
    refine ⟨stop - start, filling?_eq_some_iff.mpr ⟨?_, hvalid⟩, by omega⟩
    rw [List.length_drop]
    exact Nat.sub_le_sub_right hle start

theorem lt_of_subtreeEnd? (h : subtreeEnd? nodes start = some stop) : start < stop :=
  lt_of_isValid_extract (subtreeEnd?_eq_some_iff.mp h).2

theorem le_of_subtreeEnd? (h : subtreeEnd? nodes start = some stop) : stop ≤ nodes.length :=
  (subtreeEnd?_eq_some_iff.mp h).1

/-- Nothing behind the end of a subtree matters. -/
theorem subtreeEnd?_append_left (h : subtreeEnd? before start = some stop) (after : List Node) :
    subtreeEnd? (before ++ after) start = some stop := by
  have hstart : start ≤ before.length :=
    Nat.le_trans (Nat.le_of_lt (lt_of_subtreeEnd? h)) (le_of_subtreeEnd? h)
  rw [subtreeEnd?, Option.map_eq_some_iff] at h ⊢
  obtain ⟨count, hcount, hstop⟩ := h
  rw [List.drop_append_of_le_length hstart]
  exact ⟨count, filling?_append hcount after, hstop⟩

/-- Nothing in front of the start of a subtree matters. -/
theorem subtreeEnd?_append_right (before after : List Node) (start : Nat) :
    subtreeEnd? (before ++ after) (before.length + start) =
      (subtreeEnd? after start).map (before.length + ·) := by
  rw [subtreeEnd?, List.drop_length_add_append, subtreeEnd?, Option.map_map]
  congr 1
  funext count
  exact Nat.add_assoc _ _ _

/-- The whole of a valid sequence is the subtree at its root. -/
theorem subtreeEnd?_zero (h : isValid nodes = true) :
    subtreeEnd? nodes 0 = some nodes.length := by
  rw [subtreeEnd?_eq_some_iff, List.extract_eq_take_drop, List.drop_zero, Nat.sub_zero,
    List.take_length]
  exact ⟨Nat.le_refl _, h⟩

/-- In a valid sequence there is a subtree at every index. -/
theorem exists_subtreeEnd? (h : isValid nodes = true) (hstart : start < nodes.length) :
    ∃ stop, subtreeEnd? nodes start = some stop := by
  rw [isValid, ← List.take_append_drop start nodes] at h
  obtain ⟨more, hmore⟩ := exists_places_behind h
  rw [hmore] at h
  have hopen : 1 ≤ more := by
    rw [List.drop_eq_getElem_cons hstart] at h
    cases more with
    | zero => cases h
    | succ more => omega
  obtain ⟨count, hcount⟩ := exists_filling? h hopen
  exact ⟨start + count, by rw [subtreeEnd?, hcount, Option.map_some]⟩

/-- A subtree splits its sequence into the nodes in front of it, its own and those behind it. -/
theorem append_of_subtreeEnd? (h : subtreeEnd? nodes start = some stop) :
    nodes = nodes.take start ++ (nodes.extract start stop ++ nodes.drop stop) := by
  have hlt := lt_of_subtreeEnd? h
  have hdrop : nodes.drop stop = (nodes.drop start).drop (stop - start) := by
    rw [List.drop_drop, Nat.add_sub_cancel' (Nat.le_of_lt hlt)]
  rw [List.extract_eq_take_drop, hdrop, List.take_append_drop, List.take_append_drop]

/-! ## Surgery -/

/-- Any valid sequence may stand in the place of a subtree. -/
theorem isValid_replace (h : isValid nodes = true) (hstop : subtreeEnd? nodes start = some stop)
    {graft : List Node} (hgraft : isValid graft = true) :
    isValid (nodes.take start ++ graft ++ nodes.drop stop) = true := by
  have hslice : isValid (nodes.extract start stop) = true := (subtreeEnd?_eq_some_iff.mp hstop).2
  rw [isValid, append_of_subtreeEnd? hstop] at h
  obtain ⟨more, hmore⟩ := exists_places_behind h
  rw [hmore] at h
  rw [isValid, List.append_assoc, hmore]
  cases more with
  | zero =>
      obtain ⟨n, slice, hcons⟩ := List.exists_cons_of_ne_nil (ne_nil_of_isValid hslice)
      rw [hcons] at h
      cases h
  | succ more =>
      rw [Nat.add_comm, fills_append hslice] at h
      rw [Nat.add_comm, fills_append hgraft]
      exact h

/-- A subtree that starts inside another one ends inside it. -/
theorem stop_le_stop {i j a b : Nat} (hi : subtreeEnd? nodes i = some a)
    (hj : subtreeEnd? nodes j = some b) (hij : i ≤ j) (hja : j < a) : b ≤ a := by
  obtain ⟨hle, hvalid⟩ := subtreeEnd?_eq_some_iff.mp hi
  have hlength : (nodes.extract i a).length = a - i := by
    rw [List.extract_eq_take_drop, List.length_take, List.length_drop]
    omega
  have hinside : j - i < (nodes.extract i a).length := by omega
  obtain ⟨inner, hinner⟩ := exists_subtreeEnd? hvalid hinside
  have hwhole : subtreeEnd? nodes j = some (i + inner) := by
    have hfront : (nodes.take i).length = i := List.length_take_of_le (by omega)
    have hshift := subtreeEnd?_append_right (nodes.take i)
      (nodes.extract i a ++ nodes.drop a) (j - i)
    rw [← append_of_subtreeEnd? hi, hfront, Nat.add_sub_cancel' hij,
      subtreeEnd?_append_left hinner] at hshift
    exact hshift
  have hwithin := le_of_subtreeEnd? hinner
  cases hj.symm.trans hwhole
  omega

/-- The intervals of two subtrees are nested or disjoint. -/
theorem nested_or_disjoint {i j a b : Nat} (hi : subtreeEnd? nodes i = some a)
    (hj : subtreeEnd? nodes j = some b) :
    Set.Ico i a ⊆ Set.Ico j b ∨ Set.Ico j b ⊆ Set.Ico i a ∨
      Disjoint (Set.Ico i a) (Set.Ico j b) := by
  by_cases hdisjoint : a ≤ j ∨ b ≤ i
  · refine .inr (.inr ?_)
    rw [Set.Ico_disjoint_Ico]
    omega
  · rcases Nat.le_total i j with hij | hji
    · have hle := stop_le_stop hi hj hij (by omega)
      exact .inr (.inl (Set.Ico_subset_Ico hij hle))
    · have hle := stop_le_stop hj hi hji (by omega)
      exact .inl (Set.Ico_subset_Ico hji hle)

/-- From every index of a valid sequence the scan for the end of a subtree succeeds within the
sequence. The slice up to there is valid, the slice up to any other place is not, and any valid
sequence may be put in its place. The slices of any two indices are nested or disjoint. -/
theorem subtrees_are_slices (h : isValid nodes = true) :
    (∀ i < nodes.length, ∃ stop, subtreeEnd? nodes i = some stop ∧ i < stop ∧
      stop ≤ nodes.length ∧
      (∀ other ≤ nodes.length, isValid (nodes.extract i other) = true ↔ other = stop) ∧
      ∀ graft, isValid graft = true →
        isValid (nodes.take i ++ graft ++ nodes.drop stop) = true) ∧
    ∀ i j a b, subtreeEnd? nodes i = some a → subtreeEnd? nodes j = some b →
      Set.Ico i a ⊆ Set.Ico j b ∨ Set.Ico j b ⊆ Set.Ico i a ∨
        Disjoint (Set.Ico i a) (Set.Ico j b) := by
  refine ⟨fun i hi => ?_, fun i j a b => nested_or_disjoint⟩
  obtain ⟨stop, hstop⟩ := exists_subtreeEnd? h hi
  refine ⟨stop, hstop, lt_of_subtreeEnd? hstop, le_of_subtreeEnd? hstop, fun other hother => ?_,
    fun graft => isValid_replace h hstop⟩
  constructor
  · intro hvalid
    cases hstop.symm.trans (subtreeEnd?_eq_some_iff.mpr ⟨hother, hvalid⟩)
    rfl
  · rintro rfl
    exact (subtreeEnd?_eq_some_iff.mp hstop).2

/-- The sequence of `pick(mul(c1, x1), x2, unit())`. -/
def nestedPick : List Node :=
  [.operator ⟨"pick", [.any, .var, .any], .any, .unknown, fun values => values.headD 0⟩,
    .operator ⟨"mul", [.const, .var], .any, .unknown, fun values => values.headD 1⟩,
    .terminal (Terminal.const "c1"), .terminal (Terminal.var "x1"), .terminal (Terminal.var "x2"),
    .operator ⟨"unit", [], .any, .unknown, fun _ => 1⟩]

/-- The product is a slice that ends in front of `x2`, and the whole sequence may be put in its
place. -/
theorem subtrees_are_slices_nestedPick :
    isValid nestedPick = true ∧ subtreeEnd? nestedPick 1 = some 4 ∧
      subtreeEnd? nestedPick 3 = some 4 ∧
      (∀ other ≤ 6, isValid (nestedPick.extract 1 other) = true ↔ other = 4) ∧
      isValid (nestedPick.take 1 ++ nestedPick ++ nestedPick.drop 4) = true ∧
      (Set.Ico 1 4 ⊆ Set.Ico 3 4 ∨ Set.Ico 3 4 ⊆ Set.Ico 1 4 ∨
        Disjoint (Set.Ico 1 4) (Set.Ico 3 4)) := by
  have hvalid : isValid nestedPick = true := by decide
  have hproduct : subtreeEnd? nestedPick 1 = some 4 := by decide
  have hleaf : subtreeEnd? nestedPick 3 = some 4 := by decide
  obtain ⟨hslices, hintervals⟩ := subtrees_are_slices hvalid
  obtain ⟨stop, hstop, -, -, honly, hreplace⟩ := hslices 1 (by decide)
  cases hproduct.symm.trans hstop
  exact ⟨hvalid, hproduct, hleaf, honly, hreplace nestedPick hvalid,
    hintervals 1 3 4 4 hproduct hleaf⟩

end Preorder

end SymbolicRegression
