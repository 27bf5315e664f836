import SymbolicRegression.Proofs.GeneratedPrograms

/-!
# Generated trees are well typed

A generator draws what can stand in for the type that is asked for, and asks for the argument types
of what it drew. The weighted shapes are drawn differently: they are closed at once, and their
operators are looked up by an exact signature. `Grown` has a constructor for each of these ways, and
in every one of them the root can stand in for the type and the children for the arguments.
-/

namespace SymbolicRegression

namespace Tree

/-- The type of the value that the tree produces. -/
def type (t : Tree) : ExprType :=
  t.label.type

mutual

/-- Every operator has one child for each of its arguments, of a type that can stand in for it, and
terminals have no children. -/
def WellTyped : Tree → Prop
  | node (.operator op) ts =>
    List.Forall₂ (fun type t => t.type.isSubtype type = true) op.arguments ts ∧ WellTypedAll ts
  | node (.terminal _) ts => ts = []

def WellTypedAll : List Tree → Prop
  | [] => True
  | t :: ts => WellTyped t ∧ WellTypedAll ts

end

end Tree

theorem ExprType.isSubtype_refl (type : ExprType) : type.isSubtype type = true := by
  cases type <;> rfl

namespace Registry

variable {r : Registry}

theorem isSubtype_of_mem_operatorsReturning {type : ExprType} {op : Operator}
    (h : op ∈ r.operatorsReturning type) : op.result.isSubtype type = true := by
  obtain ⟨result, hresult, hop⟩ := List.mem_flatMap.mp h
  have hop := (List.mem_filter.mp hop).2
  rw [eq_of_beq hop]
  exact (List.mem_filter.mp hresult).2

theorem isSubtype_of_mem_terminalsFor {type : ExprType} {spec : TerminalSpec}
    (h : spec ∈ r.terminalsFor type) : spec.type.isSubtype type = true := by
  obtain ⟨t, ht, hspec⟩ := List.mem_flatMap.mp h
  have hspec := (List.mem_filter.mp hspec).2
  rw [eq_of_beq hspec]
  exact (List.mem_filter.mp ht).2

theorem result_of_operatorWithSignature? {arguments : List ExprType} {result : ExprType}
    {op : Operator} (h : r.operatorWithSignature? arguments result = some op) :
    op.result = result := by
  have hop := (List.mem_filter.mp (List.mem_of_find?_eq_some h)).2
  exact eq_of_beq hop

end Registry

namespace Tree

variable {r : Registry}

/-- The root of a grown tree can stand in for the type that the tree was grown for. -/
theorem isSubtype_of_grown {t : Tree} {type : ExprType} (h : Grown r type t) :
    t.type.isSubtype type = true := by
  cases h with
  | constant n => rfl
  | named ht => exact Registry.isSubtype_of_mem_terminalsFor ht
  | ephemeral n hspec => exact Registry.isSubtype_of_mem_terminalsFor hspec
  | operator hop _ => exact Registry.isSubtype_of_mem_operatorsReturning hop
  | @shape arguments type op ts hop _ =>
      show op.result.isSubtype type = true
      rw [Registry.result_of_operatorWithSignature? hop]
      exact type.isSubtype_refl

theorem isSubtype_of_grownAll {types : List ExprType} {ts : List Tree}
    (h : List.Forall₂ (Grown r) types ts) :
    List.Forall₂ (fun type t => t.type.isSubtype type = true) types ts :=
  h.imp fun _ _ ht => isSubtype_of_grown ht

mutual

theorem wellTyped_of_grown : ∀ (t : Tree) {type : ExprType}, Grown r type t → t.WellTyped
  | .node n ts, type, h => by
      cases h with
      | constant k => exact rfl
      | named ht => exact rfl
      | ephemeral k hspec => exact rfl
      | operator hop hts => exact ⟨isSubtype_of_grownAll hts, wellTypedAll_of_grown ts hts⟩
      | shape hop hts =>
          obtain ⟨-, rfl⟩ := Registry.of_operatorWithSignature? hop
          exact ⟨isSubtype_of_grownAll hts, wellTypedAll_of_grown ts hts⟩

theorem wellTypedAll_of_grown : ∀ (ts : List Tree) {types : List ExprType},
    List.Forall₂ (Grown r) types ts → WellTypedAll ts
  | [], _, _ => trivial
  | t :: ts, _, .cons ht hts => ⟨wellTyped_of_grown t ht, wellTypedAll_of_grown ts hts⟩

end

end Tree

/-- Whatever is generated lists exactly one tree. Its root can stand in for the type that was asked
for, or for the registry's own, and every child of an operator for the argument in its place. This
holds for every registry, range of heights and policy, from every state of the stream, and however
many constants have been named before. -/
theorem wellTyped_of_generate {r : Registry} {low high : Nat} {policy : Policy}
    {root : Option ExprType} {stream : Stream} {named : Nat} {others : NameCounter} {t : Tree}
    {rest : Sources}
    (h : generate r low high policy root ⟨stream, ⟨⟨"c", named⟩, others⟩⟩ =
      some (.ok t, rest)) :
    Preorder.isValid t.preorder = true ∧
      (∀ u : Tree, u.Fits ∧ u.preorder = t.preorder ↔ u = t) ∧
      t.type.isSubtype (root.getD r.rootType) = true ∧ t.WellTyped := by
  have hstem : Draw.Lettered ⟨⟨"c", named⟩, others⟩ := rfl
  have hgrown := grown_of_generate hstem h
  have hfits := t.fits_of_grown hgrown
  refine ⟨Preorder.isValid_preorder hfits, fun u => ⟨?_, ?_⟩, t.isSubtype_of_grown hgrown,
    t.wellTyped_of_grown hgrown⟩
  · rintro ⟨hu, heq⟩
    exact Preorder.preorder_injective hu hfits heq
  · rintro rfl
    exact ⟨hfits, rfl⟩

/-- A minted variable, both weighted operators, an operator with an argument of any type and one
without arguments. -/
def mixedRegistry : Registry :=
  ((((Registry.weighted "mixed").newVariable {}).2.1.addOperator
    ⟨"pick", [.any, .weightedSum, .const], .var, .unknown, fun values => values.headD 0⟩).addOperator
    ⟨"unit", [], .any, .unknown, fun _ => 1⟩)

/-- The argument of any type is filled by the operator without arguments, the others by a weighted
shape that is closed at once and by a constant. -/
theorem wellTyped_of_generate_mixed :
    ∃ t rest, generate mixedRegistry 2 3 Policy.full (some .any) ⟨⟨12⟩, {}⟩ = some (.ok t, rest) ∧
      Preorder.text t.preorder = "pick(unit(), wsum(wmul(c1, x1), c2), c3)" ∧
      Preorder.isValid t.preorder = true ∧
      (∀ u : Tree, u.Fits ∧ u.preorder = t.preorder ↔ u = t) ∧
      t.type.isSubtype .any = true ∧ t.WellTyped := by
  have hrun : isDrawn "pick(unit(), wsum(wmul(c1, x1), c2), c3)" ["c1", "c2", "c3"]
      (generate mixedRegistry 2 3 Policy.full (some .any) ⟨⟨12⟩, {}⟩) = true := by
    decide
  obtain ⟨t, rest, h, htext, -⟩ := exists_of_isDrawn hrun
  exact ⟨t, rest, h, htext, wellTyped_of_generate h⟩

end SymbolicRegression
