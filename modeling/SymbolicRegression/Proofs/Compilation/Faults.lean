import SymbolicRegression.Proofs.CompiledProgram
import SymbolicRegression.Proofs.Parsing.NameUses
import SymbolicRegression.Proofs.Trees.Compiled

/-!
# Where compiling fails

A part of an expression is at fault on its own account if it is a name that stands for nothing, or a
call of a name that is no function or takes another number of arguments. Nothing else can go wrong, so
an expression compiles exactly if no part of it is at fault. Otherwise the error is that of the first
such part, in the order in which the names stand in the text: a call comes before its arguments.

Compiling stops at the first error, and what it has done until then has no influence on which one that
is. That is how the proof goes: the error of a sequence of steps is that of its first step or else
that of the rest, whatever the first step has given to the rest.
-/

namespace SymbolicRegression

/-- The number of arguments that a text has to give a function: that of the operator of the name, or
else of the helper. -/
def Registry.callArity? (r : Registry) (name : String) : Option Nat :=
  match r.operator? name with
  | some op => some op.arity
  | none => (r.helper? name).map Helper.arity

/-- What is wrong with a part of an expression, its operands left aside. The name of a call is looked
at before the number of its arguments. -/
def Registry.fault? (r : Registry) : Expr Float → Option CompileError
  | .name name =>
    if Name.isConstant name = true ∨ name ∈ r.variableNames then none
    else some (.unknownName name)
  | .call name arguments =>
    match r.callArity? name with
    | none => some (.unknownFunction name)
    | some expected =>
      if expected = arguments.length then none
      else some (.arity name expected arguments.length)
  | _ => none

/-! ## The error of a computation -/

/-- The error with which a computation ends. -/
def errorOf? {ε α : Type} : Except ε α → Option ε
  | .error e => some e
  | .ok _ => none

section ErrorOf

variable {ε α β : Type} {x : Except ε α} {f : α → Except ε β}

theorem errorOf?_eq_some {e : ε} : errorOf? x = some e ↔ x = .error e := by
  cases x with
  | error e' => simp [errorOf?]
  | ok a => simp [errorOf?]

theorem errorOf?_eq_none : errorOf? x = none ↔ ∃ a, x = .ok a := by
  cases x with
  | error e => simp [errorOf?]
  | ok a => simp [errorOf?]

/-- A sequence fails as its first step does, or else as the rest. -/
theorem errorOf?_bind {o : Option ε} (h : ∀ a, errorOf? (f a) = o) :
    errorOf? (x >>= f) = (errorOf? x).or o := by
  cases x with
  | error e => rfl
  | ok a => exact h a

end ErrorOf

namespace Program

variable {scope : Scope}

/-- Every name of constant form is one of the constants, and the variables are the registry's. -/
structure Scope.Knows (scope : Scope) (names : List String) : Prop where
  declared : scope.variableNames = scope.registry.variableNames
  constants : ∀ name ∈ names, Name.isConstant name = true → name ∈ scope.constantNames

theorem Scope.Knows.left {names others : List String} (h : scope.Knows (names ++ others)) :
    scope.Knows names :=
  ⟨h.declared, fun n hn => h.constants n (List.mem_append_left _ hn)⟩

theorem Scope.Knows.right {names others : List String} (h : scope.Knows (names ++ others)) :
    scope.Knows others :=
  ⟨h.declared, fun n hn => h.constants n (List.mem_append_right _ hn)⟩

theorem Scope.Knows.param?_eq_none_iff {name : String} (h : scope.Knows [name]) :
    scope.param? name = none ↔
      ¬ (Name.isConstant name = true ∨ name ∈ scope.registry.variableNames) := by
  rw [Scope.param?]
  split
  · next hconstant =>
      have hmem := h.constants name List.mem_cons_self hconstant
      simp [hmem, hconstant]
  · next hconstant =>
      rw [h.declared]
      simp [hconstant]

theorem Scope.map_function? (scope : Scope) (name : String) :
    (scope.function? name).map Prod.snd = scope.registry.callArity? name := by
  rw [Scope.function?, Registry.callArity?]
  cases scope.registry.operator? name with
  | some op => rfl
  | none => cases scope.registry.helper? name <;> rfl

mutual

/-- Whatever has been compiled before, the error is that of the first part at fault. -/
theorem errorOf?_compileOnto :
    ∀ (e : Expr Float) (d : Draft), scope.Knows e.names →
      errorOf? (compileOnto scope e d) = e.parts.findSome? scope.registry.fault?
  | .number v, d, _ => by
      rw [compileOnto, Expr.parts, List.findSome?_singleton]
      rfl
  | .name name, d, h => by
      rw [Expr.names] at h
      rw [compileOnto, Expr.parts, List.findSome?_singleton, Registry.fault?]
      have hparam := h.param?_eq_none_iff
      cases hi : scope.param? name with
      | some i =>
          rw [hi] at hparam
          rw [if_pos (not_imp_comm.mp hparam.mpr (Option.some_ne_none i))]
          rfl
      | none =>
          rw [if_neg (hparam.mp hi)]
          rfl
  | .neg e, d, h => by
      rw [Expr.names] at h
      have he := errorOf?_compileOnto e d h
      rw [compileOnto, Expr.parts, List.findSome?_cons_of_isNone rfl,
        errorOf?_bind (o := none) fun _ => rfl, he, Option.or_none]
  | .binary op l r, d, h => by
      rw [Expr.names] at h
      have hl := errorOf?_compileOnto l d h.left
      rw [compileOnto, Expr.parts, List.findSome?_cons_of_isNone rfl, List.findSome?_append, ← hl]
      refine errorOf?_bind fun a => ?_
      rw [errorOf?_bind (o := none) fun _ => rfl, errorOf?_compileOnto r a.2 h.right,
        Option.or_none]
  | .call f arguments, d, h => by
      rw [Expr.names] at h
      have harity := scope.map_function? f
      rw [compileOnto, Expr.parts, List.findSome?_cons, Registry.fault?]
      cases hf : scope.function? f with
      | none =>
          rw [hf] at harity
          rw [← harity]
          rfl
      | some found =>
          obtain ⟨apply, expected⟩ := found
          rw [hf] at harity
          rw [← harity]
          dsimp only [Option.map_some]
          by_cases hexpected : expected = arguments.length
          · rw [if_neg (not_not.mpr hexpected), if_pos hexpected,
              errorOf?_bind (o := none) fun _ => rfl, errorOf?_compileAllOnto arguments d h,
              Option.or_none]
          · rw [if_pos hexpected, if_neg hexpected]
            rfl

theorem errorOf?_compileAllOnto :
    ∀ (es : List (Expr Float)) (d : Draft), scope.Knows (Expr.namesAll es) →
      errorOf? (compileAllOnto scope es d) = (Expr.partsAll es).findSome? scope.registry.fault?
  | [], d, _ => by
      rw [compileAllOnto]
      rfl
  | e :: es, d, h => by
      rw [Expr.namesAll] at h
      have he := errorOf?_compileOnto e d h.left
      rw [compileAllOnto, Expr.partsAll, List.findSome?_append, ← he]
      refine errorOf?_bind fun a => ?_
      rw [errorOf?_bind (o := none) fun _ => rfl, errorOf?_compileAllOnto es a.2 h.right,
        Option.or_none]

end

/-- The constants of an expression are all its names of constant form. -/
theorem knows_constantNames (e : Expr Float) (registry : Registry) :
    Scope.Knows ⟨registry, e.constantNames, registry.variableNames⟩ e.names where
  declared := rfl
  constants _ hname hconstant :=
    (Tree.mem_foldl_distinct _ []).mpr (.inr (List.mem_filter.mpr ⟨hname, hconstant⟩))

theorem errorOf?_compile {text : String} {e : Expr Float} (hparse : parse text = .ok e)
    (registry : Registry) :
    errorOf? (compile text registry) = e.parts.findSome? registry.fault? := by
  rw [compile, hparse]
  dsimp only
  rw [Expr.compile, errorOf?_bind (o := none) fun _ => rfl,
    errorOf?_compileOnto e {} (knows_constantNames e registry), Option.or_none]

end Program

/-! ## Parts without fault -/

namespace Registry

variable {r : Registry} {name : String} {arguments : List (Expr Float)}

theorem fault?_name_eq_none_iff :
    r.fault? (.name name) = none ↔ Name.isConstant name = true ∨ name ∈ r.variableNames := by
  rw [fault?]
  split
  · next h => exact iff_of_true rfl h
  · next h => exact iff_of_false (Option.some_ne_none _) h

theorem fault?_call_eq_none_iff :
    r.fault? (.call name arguments) = none ↔ r.callArity? name = some arguments.length := by
  rw [fault?]
  cases r.callArity? name with
  | none => simp
  | some expected => simp

theorem callArity?_eq_some_iff {n : Nat} :
    r.callArity? name = some n ↔
      (∃ op, r.operator? name = some op ∧ op.arity = n) ∨
        (r.operator? name = none ∧ ∃ h, r.helper? name = some h ∧ h.arity = n) := by
  rw [callArity?]
  cases r.operator? name with
  | none => simp
  | some op => simp

/-- Only names and calls can be at fault. -/
theorem forall_fault?_eq_none_iff {parts : List (Expr Float)} :
    (∀ part ∈ parts, r.fault? part = none) ↔
      (∀ name, .name name ∈ parts → r.fault? (.name name) = none) ∧
        ∀ f arguments, .call f arguments ∈ parts → r.fault? (.call f arguments) = none := by
  constructor
  · exact fun h => ⟨fun name hmem => h _ hmem, fun f arguments hmem => h _ hmem⟩
  · rintro ⟨hnames, hcalls⟩ part hmem
    cases part with
    | name name => exact hnames name hmem
    | call f arguments => exact hcalls f arguments hmem
    | _ => rfl

/-- A name that is unknown is not of constant form. -/
theorem isConstant_of_fault? {part : Expr Float}
    (h : r.fault? part = some (.unknownName name)) : Name.isConstant name = false := by
  cases part with
  | name n =>
      rw [fault?] at h
      split at h
      · cases h
      · next hunknown =>
          cases h
          exact Bool.eq_false_iff.mpr fun hconstant => hunknown (.inl hconstant)
  | call f arguments =>
      rw [fault?] at h
      split at h
      · cases h
      · split at h <;> cases h
  | _ => cases h

end Registry

/-- A text that is an expression compiles exactly if every name in it that is used as a value is of
constant form or a declared variable, and every call is of an operator, or else of a helper, with as
many arguments as that takes. If it does not, the error is that of the first part at fault; the parts
are gone through in the order in which the names stand in the text, and each call is looked at before
its arguments. A name of constant form is never unknown. -/
theorem Program.compile_reports_first_fault {text : String} {e : Expr Float}
    (h : parse text = .ok e) (registry : Registry) :
    ((∃ p, compile text registry = .ok p) ↔
      (∀ name, .name name ∈ e.parts →
        Name.isConstant name = true ∨ name ∈ registry.variableNames) ∧
      ∀ f arguments, .call f arguments ∈ e.parts →
        (∃ op, registry.operator? f = some op ∧ op.arity = arguments.length) ∨
          (registry.operator? f = none ∧
            ∃ helper, registry.helper? f = some helper ∧ helper.arity = arguments.length)) ∧
    (∀ error, compile text registry = .error error ↔
      ∃ before part after, e.parts = before ++ part :: after ∧
        registry.fault? part = some error ∧ ∀ earlier ∈ before, registry.fault? earlier = none) ∧
    (∀ name, Name.isConstant name = true →
      compile text registry ≠ .error (.unknownName name)) ∧
    ∃ tokens, tokenize text = .ok tokens ∧
      e.parts.filterMap Expr.use? = Grammar.usesOf (tokens.map Token.kind) := by
  have herror := errorOf?_compile h registry
  have hfirst : ∀ error, compile text registry = .error error ↔
      ∃ before part after, e.parts = before ++ part :: after ∧
        registry.fault? part = some error ∧
        ∀ earlier ∈ before, registry.fault? earlier = none := by
    intro error
    rw [← errorOf?_eq_some, herror, List.findSome?_eq_some_iff]
  refine ⟨?_, hfirst, fun name hconstant hunknown => ?_, ?_⟩
  · rw [← errorOf?_eq_none, herror, List.findSome?_eq_none_iff,
      Registry.forall_fault?_eq_none_iff]
    simp only [Registry.fault?_name_eq_none_iff, Registry.fault?_call_eq_none_iff,
      Registry.callArity?_eq_some_iff]
  · obtain ⟨_, part, _, _, hfault, _⟩ := (hfirst _).mp hunknown
    rw [Registry.isConstant_of_fault? hfault] at hconstant
    cases hconstant
  · obtain ⟨tokens, htokens, -⟩ := tokens_of_parse h
    exact ⟨tokens, htokens, uses_of_parse htokens h⟩

/-- Three parts are at fault. The call with one argument too few comes before the argument, which is
unknown, and before the call that is no function. -/
theorem Program.compile_reports_first_fault_nested :
    parse "c1 * wsum(x9) + nope(x1)" =
        .ok (.binary .add (.binary .mul (.name "c1") (.call "wsum" [.name "x9"]))
          (.call "nope" [.name "x1"])) ∧
      compile "c1 * wsum(x9) + nope(x1)" weightedRegistry = .error (.arity "wsum" 2 1) ∧
      compile "c1 * wsum(x9) + nope(x1)" weightedRegistry ≠ .error (.unknownName "c1") ∧
      ¬ ∃ p, compile "c1 * wsum(x9) + nope(x1)" weightedRegistry = .ok p := by
  have h : parse "c1 * wsum(x9) + nope(x1)" =
      .ok (.binary .add (.binary .mul (.name "c1") (.call "wsum" [.name "x9"]))
        (.call "nope" [.name "x1"])) := by
    cbv
  obtain ⟨hok, hfirst, hconstant, -⟩ := compile_reports_first_fault h weightedRegistry
  refine ⟨h, (hfirst _).mpr ?_, hconstant "c1" (by decide), fun hp => ?_⟩
  · exact ⟨[_, _, .name "c1"], .call "wsum" [.name "x9"], _, rfl, rfl, by
      simp [Registry.fault?, Name.isConstant]⟩
  · have hcall := (hok.mp hp).2 "nope" [.name "x1"] (by simp [Expr.parts, Expr.partsAll])
    revert hcall
    decide

end SymbolicRegression
