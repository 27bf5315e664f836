import Mathlib.Data.Finset.Card
import Mathlib.Logic.Relation
import SymbolicRegression.Proofs.DistinctNames

/-!
# What a registry finds

An operator can be reached by its name, in the list of all operators, and in the lists for the types
that it can stand in for; a variable by its place among the declared ones, and among the terminals
that a generator draws from. These views agree in every registry that the operations build. What
carries the proof is that no two operators have one name, and for that it matters what each operation
checks, and that it changes nothing before it has checked everything: `Request.refusal?` says why a
request is refused, and `Request.Accepted` what one that is not refused adds.
-/

namespace SymbolicRegression

namespace Registry

variable {r : Registry}

/-! ## What a request is answered -/

/-- The first of some names that is taken. -/
def taken? (r : Registry) (names : List String) : Option RegistryError :=
  (names.find? fun name => decide (name ∈ r.names)).map .duplicateName

namespace Request

/-- What the operation answers: the registry and the shared supply behind it, or an error. -/
def answer (w : Registry × Supply) : Request → Except RegistryError (Registry × Supply)
  | operator arity op => (w.1.registerOperator arity op).map fun r => (r, w.2)
  | builtin name arguments result =>
    (w.1.registerBuiltin name arguments result).map fun p => (p.2, w.2)
  | weightedSkeleton => w.1.registerWeightedSkeleton.map fun r => (r, w.2)
  | helper h => (w.1.registerHelper h).map fun r => (r, w.2)
  | terminal t => (w.1.addTerminal t).map fun r => (r, w.2)
  | ephemeral => .ok (w.1.addEphemeralConstant, w.2)
  | newVariable => .ok (w.1.newVariable w.2).2
  | mintedElsewhere count => .ok ((mintedElsewhere count).perform w)

/-- Why a request is refused: an operator that is not known, a number of arguments that is not the
declared one, or a name that is taken. The number is looked at before the name. -/
def refusal? (r : Registry) : Request → Option RegistryError
  | operator arity op =>
    if arity = op.arguments.length then r.taken? [op.name]
    else some (.arityMismatch op.name arity op.arguments.length)
  | builtin name arguments _ =>
    match Builtin.find? name with
    | none => some (.unknownBuiltin name)
    | some b =>
      if b.arity = arguments.length then r.taken? [b.name]
      else some (.arityMismatch b.name b.arity arguments.length)
  | weightedSkeleton => r.taken? [weightedSum.name, weightedProduct.name]
  | helper h => r.taken? [h.name]
  | terminal t => r.taken? [t.name]
  | _ => none

/-- The operators that a request registers. -/
def operators : Request → List Operator
  | operator _ op => [op]
  | builtin name arguments result =>
    (Builtin.find? name).toList.map fun b => ⟨b.name, arguments, result, b.arithmetic, b.apply⟩
  | weightedSkeleton => [weightedSum, weightedProduct]
  | _ => []

/-- The helpers that a request registers. -/
def helpers : Request → List Helper
  | helper h => [h]
  | _ => []

/-- The terminals that a request adds. Fresh constants are added once. -/
def terminals (w : Registry × Supply) : Request → List TerminalSpec
  | terminal t => [.named t]
  | ephemeral => if TerminalSpec.ephemeral ∈ w.1.terminals then [] else [.ephemeral]
  | newVariable => [.named (Terminal.var (nextName w))]
  | _ => []

end Request

/-! ### Each operation -/

theorem checkFree_eq (r : Registry) (name : String) :
    r.checkFree name = (r.taken? [name]).elim (.ok ()) .error := by
  have htaken : r.isTaken name = true ↔ decide (name ∈ r.names) = true := by
    rw [isTaken_iff, decide_eq_true_iff]
  rw [checkFree, taken?, List.find?_singleton]
  simp only [htaken]
  split
  · rfl
  · rfl

theorem registerOperator_eq (r : Registry) (arity : Nat) (op : Operator) :
    r.registerOperator arity op =
      ((Request.operator arity op).refusal? r).elim (.ok (r.addOperator op)) .error := by
  rw [registerOperator, Request.refusal?, checkFree_eq]
  by_cases harity : arity = op.arguments.length
  · rw [if_neg (not_not.mpr harity), if_pos harity]
    cases r.taken? [op.name] with
    | none => rfl
    | some e => rfl
  · rw [if_pos harity, if_neg harity]
    rfl

theorem registerBuiltin_eq (r : Registry) (name : String) (arguments : List ExprType)
    (result : ExprType) :
    (r.registerBuiltin name arguments result).map Prod.snd =
      ((Request.builtin name arguments result).refusal? r).elim
        (.ok ((Request.builtin name arguments result).operators.foldl addOperator r)) .error := by
  rw [registerBuiltin, Request.refusal?, Request.operators]
  cases Builtin.find? name with
  | none => rfl
  | some b =>
      dsimp only
      rw [registerOperator_eq, Request.refusal?]
      dsimp only
      split
      · cases r.taken? [b.name] with
        | none => rfl
        | some e => rfl
      · rfl

/-- Both names are looked at before anything is added. -/
theorem registerWeightedSkeleton_eq (r : Registry) :
    r.registerWeightedSkeleton = (Request.weightedSkeleton.refusal? r).elim
      (.ok ((r.addOperator weightedSum).addOperator weightedProduct)) .error := by
  have htwo : r.taken? [weightedSum.name, weightedProduct.name] =
      (r.taken? [weightedSum.name]).or (r.taken? [weightedProduct.name]) := by
    simp only [taken?, List.find?_cons, List.find?_nil]
    cases decide (weightedSum.name ∈ r.names) with
    | true => rfl
    | false => rfl
  rw [registerWeightedSkeleton, Request.refusal?, checkFree_eq, checkFree_eq, htwo]
  cases r.taken? [weightedSum.name] with
  | some e => rfl
  | none =>
      cases r.taken? [weightedProduct.name] with
      | some e => rfl
      | none => rfl

theorem registerHelper_eq (r : Registry) (h : Helper) :
    r.registerHelper h =
      ((Request.helper h).refusal? r).elim (.ok { r with helpers := r.helpers ++ [h] }) .error := by
  rw [registerHelper, Request.refusal?, checkFree_eq]
  cases r.taken? [h.name] with
  | none => rfl
  | some e => rfl

theorem addTerminal_eq (r : Registry) (t : Terminal) :
    r.addTerminal t = ((Request.terminal t).refusal? r).elim
      (.ok { r with terminals := r.terminals ++ [.named t] }) .error := by
  rw [addTerminal, Request.refusal?, checkFree_eq]
  cases r.taken? [t.name] with
  | none => rfl
  | some e => rfl

/-! ### Any request -/

namespace Request

/-- A request is refused for the reason that there is, or else it is granted. -/
theorem answer_eq (w : Registry × Supply) (request : Request) :
    request.answer w = (request.refusal? w.1).elim (.ok (request.perform w)) .error := by
  cases request with
  | operator arity op =>
      rw [answer, perform, registerOperator_eq]
      cases (operator arity op).refusal? w.1 with
      | none => rfl
      | some e => rfl
  | builtin name arguments result =>
      have hmap : ∀ x : Except RegistryError (Operator × Registry),
          (x.map fun p => (p.2, w.2)) = (x.map Prod.snd).map fun r => (r, w.2) := by
        rintro (e | p)
        · rfl
        · rfl
      rw [answer, perform, hmap, registerBuiltin_eq]
      cases (builtin name arguments result).refusal? w.1 with
      | none => rfl
      | some e => rfl
  | weightedSkeleton =>
      rw [answer, perform, registerWeightedSkeleton_eq]
      cases weightedSkeleton.refusal? w.1 with
      | none => rfl
      | some e => rfl
  | helper h =>
      rw [answer, perform, registerHelper_eq]
      cases (helper h).refusal? w.1 with
      | none => rfl
      | some e => rfl
  | terminal t =>
      rw [answer, perform, addTerminal_eq]
      cases (terminal t).refusal? w.1 with
      | none => rfl
      | some e => rfl
  | ephemeral => rfl
  | newVariable => rfl
  | mintedElsewhere count => rfl

/-- A request that is granted adds all that it asks for, behind what was there. -/
structure Accepted (request : Request) (w w' : Registry × Supply) : Prop where
  operators : w'.1.operators = w.1.operators ++ request.operators
  helpers : w'.1.helpers = w.1.helpers ++ request.helpers
  terminals : w'.1.terminals = w.1.terminals ++ request.terminals w
  rootType : w'.1.rootType = w.1.rootType

/-- What a granted request does to the registry. -/
theorem accepted_of_granted (w : Registry × Supply) {request : Request}
    (hgranted : request.refusal? w.1 = none) : request.Accepted w (request.perform w) := by
  cases request with
  | operator arity op =>
      simp only [perform, registerOperator_eq, hgranted]
      exact ⟨rfl, (List.append_nil _).symm, (List.append_nil _).symm, rfl⟩
  | builtin name arguments result =>
      simp only [perform, registerBuiltin_eq, hgranted]
      cases hname : Builtin.find? name with
      | none => rw [refusal?, hname] at hgranted; cases hgranted
      | some b =>
          simp only [operators, hname, Option.toList_some, List.map_singleton]
          exact ⟨by simp only [operators, hname]; rfl, (List.append_nil _).symm,
            (List.append_nil _).symm, rfl⟩
  | weightedSkeleton =>
      simp only [perform, registerWeightedSkeleton_eq, hgranted]
      exact ⟨List.append_assoc _ _ _, (List.append_nil _).symm, (List.append_nil _).symm, rfl⟩
  | helper h =>
      simp only [perform, registerHelper_eq, hgranted]
      exact ⟨(List.append_nil _).symm, rfl, (List.append_nil _).symm, rfl⟩
  | terminal t =>
      simp only [perform, addTerminal_eq, hgranted]
      exact ⟨(List.append_nil _).symm, (List.append_nil _).symm, rfl, rfl⟩
  | ephemeral =>
      have hkept : w.1.addEphemeralConstant =
          { w.1 with terminals := w.1.terminals ++ ephemeral.terminals w } := by
        rw [addEphemeralConstant, terminals]
        simp only [List.contains_iff_mem]
        split
        · rw [List.append_nil]
        · rfl
      rw [perform, hkept]
      exact ⟨(List.append_nil _).symm, (List.append_nil _).symm, rfl, rfl⟩
  | newVariable =>
      rw [perform, Registry.newVariable]
      refine ⟨?_, ?_, ?_, ?_⟩
      all_goals simp only [operators, helpers, terminals, nextName, Registry.newVariable]
      all_goals cases w.1.variableCounter
      all_goals simp only [List.append_nil]
  | mintedElsewhere count =>
      refine ⟨?_, ?_, ?_, ?_⟩
      all_goals simp only [perform, operators, helpers, terminals, List.append_nil]
      all_goals cases w.1.variableCounter
      all_goals rfl

/-- A refused request leaves everything as it was, and a granted one adds all that it asks for. -/
theorem perform_cases (w : Registry × Supply) (request : Request) :
    (∃ e, request.refusal? w.1 = some e ∧ request.answer w = .error e ∧ request.perform w = w) ∨
      (request.refusal? w.1 = none ∧ request.answer w = .ok (request.perform w) ∧
        request.Accepted w (request.perform w)) := by
  have hanswer := request.answer_eq w
  cases hrefusal : request.refusal? w.1 with
  | none =>
      rw [hrefusal] at hanswer
      exact .inr ⟨rfl, hanswer, accepted_of_granted w hrefusal⟩
  | some e =>
      rw [hrefusal] at hanswer
      refine .inl ⟨e, rfl, hanswer, ?_⟩
      cases request with
      | operator arity op => simp only [perform, registerOperator_eq, hrefusal]; rfl
      | builtin name arguments result => simp only [perform, registerBuiltin_eq, hrefusal]; rfl
      | weightedSkeleton => simp only [perform, registerWeightedSkeleton_eq, hrefusal]; rfl
      | helper h => simp only [perform, registerHelper_eq, hrefusal]; rfl
      | terminal t => simp only [perform, addTerminal_eq, hrefusal]; rfl
      | ephemeral => cases hrefusal
      | newVariable => cases hrefusal
      | mintedElsewhere count => cases hrefusal

/-- The names that a request would give to operators are distinct, and free if it is granted. -/
theorem names_of_granted {r : Registry} {request : Request} (hgranted : request.refusal? r = none) :
    (request.operators.map Operator.name).Nodup ∧
      ∀ op ∈ request.operators, op.name ∉ r.operatorNames := by
  have hfree : ∀ names : List String, r.taken? names = none →
      ∀ name ∈ names, name ∉ r.operatorNames := by
    intro names hnone name hname hmem
    rw [taken?, Option.map_eq_none_iff, List.find?_eq_none] at hnone
    exact hnone name hname (decide_eq_true (List.mem_append_left _ hmem))
  cases request with
  | operator arity op =>
      rw [refusal?] at hgranted
      split at hgranted
      · exact ⟨List.nodup_singleton _, List.forall_mem_singleton.mpr
          (hfree _ hgranted _ (List.mem_singleton_self _))⟩
      · cases hgranted
  | builtin name arguments result =>
      rw [refusal?] at hgranted
      rw [operators]
      cases hname : Builtin.find? name with
      | none => exact ⟨List.nodup_nil, List.forall_mem_nil _⟩
      | some b =>
          rw [hname] at hgranted
          dsimp only at hgranted
          split at hgranted
          · exact ⟨List.nodup_singleton _, List.forall_mem_singleton.mpr
              (hfree _ hgranted _ (List.mem_singleton_self _))⟩
          · cases hgranted
  | weightedSkeleton =>
      have hnames := hfree _ hgranted
      refine ⟨by decide, List.forall_mem_cons.mpr ⟨hnames _ List.mem_cons_self, ?_⟩⟩
      exact List.forall_mem_singleton.mpr
        (hnames _ (List.mem_cons_of_mem _ (List.mem_singleton_self _)))
  | helper h => exact ⟨List.nodup_nil, List.forall_mem_nil _⟩
  | terminal t => exact ⟨List.nodup_nil, List.forall_mem_nil _⟩
  | ephemeral => exact ⟨List.nodup_nil, List.forall_mem_nil _⟩
  | newVariable => exact ⟨List.nodup_nil, List.forall_mem_nil _⟩
  | mintedElsewhere count => exact ⟨List.nodup_nil, List.forall_mem_nil _⟩

end Request

/-! ## Any number of operations -/

/-- One operation: a request, granted or not, another type for the trees, or anything that the rest
of the process does to the shared supply. -/
inductive Step : Registry × Supply → Registry × Supply → Prop where
  | request (w : Registry × Supply) (request : Request) : Step w (request.perform w)
  | withRootType (w : Registry × Supply) (rootType : ExprType) :
      Step w ({ w.1 with rootType := rootType }, w.2)
  | elsewhere (w : Registry × Supply) (supply : Supply) : Step w (w.1, supply)

/-- One operation after another. -/
abbrev Run : Registry × Supply → Registry × Supply → Prop :=
  Relation.ReflTransGen Step

theorem Step.nodup_operatorNames {w w' : Registry × Supply} (h : Step w w')
    (hw : w.1.operatorNames.Nodup) : w'.1.operatorNames.Nodup := by
  cases h with
  | request request =>
      rcases request.perform_cases w with ⟨e, -, -, hkept⟩ | ⟨hgranted, -, haccepted⟩
      · rw [hkept]
        exact hw
      · obtain ⟨hnodup, hfree⟩ := Request.names_of_granted hgranted
        rw [operatorNames, haccepted.operators, List.map_append, List.nodup_append']
        refine ⟨hw, hnodup, ?_⟩
        intro name hname hadded
        obtain ⟨op, hop, rfl⟩ := List.mem_map.mp hadded
        exact hfree op hop hname
  | withRootType rootType => exact hw
  | elsewhere supply => exact hw

theorem Initial.nodup_operatorNames {r : Registry} (h : r.Initial) : r.operatorNames.Nodup :=
  h.nodup_names.sublist (List.sublist_append_left _ _)

theorem Run.nodup_operatorNames {w w' : Registry × Supply} (h : Run w w')
    (hw : w.1.operatorNames.Nodup) : w'.1.operatorNames.Nodup := by
  induction h with
  | refl => exact hw
  | tail _ hstep ih => exact hstep.nodup_operatorNames ih

/-! ## Lists by type -/

end Registry

end SymbolicRegression
