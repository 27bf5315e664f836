import Mathlib.Data.List.Nodup
import SymbolicRegression.Proofs.Results
import SymbolicRegression.Registry

/-!
# What a registry hands out

A registry is only ever built by its operations, so that is what `Registry.Reachable` says. The one
thing that matters about this here is that an operator's name leads back to that operator: trees hold
operators, texts only hold their names. Nothing in the data rules out two operators of one name. It
is the check in front of each registration that does, and the few that are made without it are those
of a registry that is still empty.

The other lemmas say where the things that a generator draws come from: every list that it draws from
is a part of the catalogue.
-/

namespace SymbolicRegression

theorem ExprType.mem_all (type : ExprType) : type ∈ all := by
  cases type <;> decide

namespace Registry

/-- The registries that the operations build. An operation that is refused builds nothing. -/
inductive Reachable : Registry → Prop where
  | empty (name : String) (rootType : ExprType) : Reachable (Registry.empty name rootType)
  | counted (name : String) (rootType : ExprType) (counter : NameCounter) :
      Reachable { Registry.empty name rootType with variableCounter := some counter }
  | weighted (name : String) : Reachable (Registry.weighted name)
  | withRootType {r : Registry} (rootType : ExprType) :
      Reachable r → Reachable { r with rootType := rootType }
  | operator {r r' : Registry} {arity : Nat} {op : Operator} :
      Reachable r → r.registerOperator arity op = .ok r' → Reachable r'
  | builtin {r r' : Registry} {name : String} {arguments : List ExprType} {result : ExprType}
      {op : Operator} :
      Reachable r → r.registerBuiltin name arguments result = .ok (op, r') → Reachable r'
  | weightedSkeleton {r r' : Registry} :
      Reachable r → r.registerWeightedSkeleton = .ok r' → Reachable r'
  | helper {r r' : Registry} {h : Helper} :
      Reachable r → r.registerHelper h = .ok r' → Reachable r'
  | terminal {r r' : Registry} {t : Terminal} :
      Reachable r → r.addTerminal t = .ok r' → Reachable r'
  | ephemeral {r : Registry} : Reachable r → Reachable r.addEphemeralConstant
  | newVariable {r : Registry} (supply : Supply) :
      Reachable r → Reachable (r.newVariable supply).2.1

/-! ## Operators by name -/

/-- The names of the operators, in the order in which they were registered. -/
def operatorNames (r : Registry) : List String :=
  r.operators.map Operator.name

theorem operatorNames_addOperator (r : Registry) (op : Operator) :
    (r.addOperator op).operatorNames = r.operatorNames ++ [op.name] := by
  rw [operatorNames, addOperator, List.map_append, operatorNames, List.map_singleton]

/-- A name that is free is not that of an operator. -/
theorem notMem_operatorNames {r : Registry} {name : String} {u : Unit}
    (h : r.checkFree name = .ok u) : name ∉ r.operatorNames := by
  intro hmem
  obtain ⟨op, hop, hname⟩ := List.mem_map.mp hmem
  have hfound : (r.operator? name).isSome = true := by
    rw [operator?, List.find?_isSome]
    exact ⟨op, hop, by simpa using hname⟩
  rw [checkFree, isTaken, hfound] at h
  cases h

theorem nodup_addOperator {r : Registry} {op : Operator} {u : Unit}
    (hr : r.operatorNames.Nodup) (hfree : r.checkFree op.name = .ok u) :
    (r.addOperator op).operatorNames.Nodup := by
  rw [operatorNames_addOperator, List.nodup_append]
  refine ⟨hr, List.nodup_singleton _, ?_⟩
  intro a ha b hb hab
  rw [List.mem_singleton] at hb
  subst hb
  subst hab
  exact notMem_operatorNames hfree ha

theorem registerOperator_eq_ok {r r' : Registry} {arity : Nat} {op : Operator}
    (h : r.registerOperator arity op = .ok r') :
    r.checkFree op.name = .ok () ∧ r' = r.addOperator op := by
  rw [registerOperator] at h
  split at h
  · cases h
  · cases hfree : r.checkFree op.name with
    | error _ => rw [hfree] at h; cases h
    | ok u => rw [hfree] at h; cases h; exact ⟨rfl, rfl⟩

theorem registerBuiltin_eq_ok {r r' : Registry} {name : String} {arguments : List ExprType}
    {result : ExprType} {op : Operator}
    (h : r.registerBuiltin name arguments result = .ok (op, r')) :
    r.checkFree op.name = .ok () ∧ r' = r.addOperator op := by
  rw [registerBuiltin] at h
  split at h
  · cases h
  · next b hb =>
      cases hop : r.registerOperator b.arity ⟨b.name, arguments, result, b.arithmetic, b.apply⟩ with
      | error _ => simp only [hop] at h; cases h
      | ok r₁ =>
          simp only [hop] at h
          cases h
          exact registerOperator_eq_ok hop

/-- The second weighted operator is checked before the first one is added; their names differ. -/
theorem registerWeightedSkeleton_eq_ok {r r' : Registry}
    (h : r.registerWeightedSkeleton = .ok r') :
    r.checkFree weightedSum.name = .ok () ∧ r.checkFree weightedProduct.name = .ok () ∧
      r' = (r.addOperator weightedSum).addOperator weightedProduct := by
  rw [registerWeightedSkeleton] at h
  obtain ⟨u, hsum, h⟩ := bind_eq_ok h
  obtain ⟨u', hproduct, heq⟩ := bind_eq_ok h
  cases heq
  exact ⟨hsum, hproduct, rfl⟩

theorem Reachable.nodup_operatorNames {r : Registry} (h : r.Reachable) :
    r.operatorNames.Nodup := by
  induction h with
  | empty => exact List.nodup_nil
  | counted => exact List.nodup_nil
  | weighted =>
      change [weightedSum.name, weightedProduct.name].Nodup
      decide
  | withRootType _ _ ih => exact ih
  | operator _ hregister ih =>
      obtain ⟨hfree, rfl⟩ := registerOperator_eq_ok hregister
      exact nodup_addOperator ih hfree
  | builtin _ hregister ih =>
      obtain ⟨hfree, rfl⟩ := registerBuiltin_eq_ok hregister
      exact nodup_addOperator ih hfree
  | weightedSkeleton _ hregister ih =>
      obtain ⟨hsum, hproduct, rfl⟩ := registerWeightedSkeleton_eq_ok hregister
      have hfirst := nodup_addOperator ih hsum
      rw [operatorNames_addOperator, List.nodup_append]
      refine ⟨hfirst, List.nodup_singleton _, ?_⟩
      intro a ha b hb hab
      rw [List.mem_singleton] at hb
      subst hb
      subst hab
      rw [operatorNames_addOperator, List.mem_append, List.mem_singleton] at ha
      rcases ha with ha | ha
      · exact notMem_operatorNames hproduct ha
      · exact absurd ha (by decide)
  | @helper r r' h _ hregister ih =>
      rw [registerHelper] at hregister
      cases hfree : r.checkFree h.name with
      | error _ => rw [hfree] at hregister; cases hregister
      | ok u => rw [hfree] at hregister; cases hregister; exact ih
  | @terminal r r' t _ hadd ih =>
      rw [addTerminal] at hadd
      cases hfree : r.checkFree t.name with
      | error _ => rw [hfree] at hadd; cases hadd
      | ok u => rw [hfree] at hadd; cases hadd; exact ih
  | ephemeral _ ih =>
      rw [addEphemeralConstant]
      split
      · exact ih
      · exact ih
  | newVariable _ _ ih =>
      rw [Registry.newVariable]
      split
      · exact ih
      · exact ih

theorem operator?_eq_some_of_mem {r : Registry} (hnodup : r.operatorNames.Nodup) {op : Operator}
    (hop : op ∈ r.operators) : r.operator? op.name = some op := by
  cases hfound : r.operator? op.name with
  | none =>
      rw [operator?, List.find?_eq_none] at hfound
      exact absurd (beq_self_eq_true op.name) (hfound op hop)
  | some found =>
      rw [operator?] at hfound
      have hname : found.name = op.name := by simpa using List.find?_some hfound
      have hmem := List.mem_of_find?_eq_some hfound
      rw [List.inj_on_of_nodup_map hnodup hmem hop hname]

theorem Reachable.operator?_eq_some {r : Registry} (h : r.Reachable) {op : Operator}
    (hop : op ∈ r.operators) : r.operator? op.name = some op :=
  operator?_eq_some_of_mem h.nodup_operatorNames hop

/-! ## What is drawn from -/

theorem mem_operators_of_mem_operatorsOf {r : Registry} {type : ExprType} {op : Operator}
    (h : op ∈ r.operatorsOf type) : op ∈ r.operators :=
  (List.mem_filter.mp h).1

theorem mem_operatorsReturning {r : Registry} {type : ExprType} {op : Operator}
    (hop : op ∈ r.operators) (htype : op.result.isSubtype type = true) :
    op ∈ r.operatorsReturning type := by
  exact List.mem_flatMap.mpr ⟨op.result, List.mem_filter.mpr ⟨ExprType.mem_all _, htype⟩,
    List.mem_filter.mpr ⟨hop, beq_self_eq_true _⟩⟩

theorem mem_operators_of_mem_operatorsReturning {r : Registry} {type : ExprType} {op : Operator}
    (h : op ∈ r.operatorsReturning type) : op ∈ r.operators := by
  obtain ⟨t, -, hop⟩ := List.mem_flatMap.mp h
  exact mem_operators_of_mem_operatorsOf hop

theorem of_operatorWithSignature? {r : Registry} {arguments : List ExprType}
    {result : ExprType} {op : Operator}
    (h : r.operatorWithSignature? arguments result = some op) :
    op ∈ r.operators ∧ op.arguments = arguments := by
  have hsame := List.find?_some h
  exact ⟨mem_operators_of_mem_operatorsOf (List.mem_of_find?_eq_some h), eq_of_beq hsame⟩

theorem mem_terminals_of_mem_terminalsFor {r : Registry} {type : ExprType} {spec : TerminalSpec}
    (h : spec ∈ r.terminalsFor type) : spec ∈ r.terminals := by
  obtain ⟨t, -, hspec⟩ := List.mem_flatMap.mp h
  exact (List.mem_filter.mp hspec).1

theorem mem_variableNames {r : Registry} {t : Terminal} (hkind : t.kind = .var)
    (h : TerminalSpec.named t ∈ r.terminals) : t.name ∈ r.variableNames := by
  rw [variableNames, List.mem_filterMap]
  exact ⟨.named t, h, by simp [hkind]⟩

end Registry

end SymbolicRegression
