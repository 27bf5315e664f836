import Mathlib
import SymbolicRegression.Expr.Value
import SymbolicRegression.Matrix
import SymbolicRegression.Program.Compile
import SymbolicRegression.Proofs.Results

/-!
# A compiled program computes the value of its expression

Compilation hands out slots and takes them back: the slots of the operands are released before the
target is chosen, so the target is usually one of them. What keeps this sound is that the slots fall
into two kinds. A slot is *live* while some later instruction may still read it; all others are free
or were never used, and the instructions of an expression write to no others. So compiling the right
operand cannot spoil the value of the left one, whatever the nesting.

`Draft.WellFormed` is the invariant of the free slots, and `Computes` says what compiling some
expressions adds to a draft: their values stand in places that were not live before, no two of them
in one slot, and every slot that was live is untouched. `Draft.WellFormed.emit` shows the step of one
instruction, `computes_compileOnto` carries it through all expressions, and the rest of the file
looks names up among the parameters and lets many rows pass through one list of arguments.
-/

namespace SymbolicRegression

/-! ## Slots -/

/-- The slot that an operand is read from. -/
def Operand.slot? : Operand → Option Nat
  | .slot i => some i
  | _ => none

namespace Program

/-- The slots that operands are read from. -/
def slotsOf (operands : List Operand) : List Nat :=
  operands.filterMap Operand.slot?

theorem slotsOf_cons (operand : Operand) (operands : List Operand) :
    slotsOf (operand :: operands) = slotsOf [operand] ++ slotsOf operands := by
  rw [slotsOf, slotsOf, slotsOf, ← List.filterMap_append, List.singleton_append]

namespace Draft

/-- The free slots are different and have been in use. -/
structure WellFormed (d : Draft) : Prop where
  nodup : d.free.Nodup
  lt_slotCount : ∀ i ∈ d.free, i < d.slotCount

/-- A slot holds a value that may still be read: it was handed out and not released. -/
def Live (d : Draft) (i : Nat) : Prop :=
  i < d.slotCount ∧ i ∉ d.free

theorem wellFormed_empty : WellFormed {} :=
  ⟨List.nodup_nil, fun _ h => absurd h List.not_mem_nil⟩

theorem release_eq (free : List Nat) (operands : List Operand) :
    release free operands = (slotsOf operands).reverse ++ free := by
  induction operands generalizing free with
  | nil => rfl
  | cons o os ih =>
      cases o with
      | slot i =>
          rw [show release free (.slot i :: os) = release (i :: free) os from rfl, ih]
          simp [slotsOf, Operand.slot?]
      | param _ | literal _ => exact ih free

/-- The slots after all the instructions so far, starting from slots that are zero. -/
def Reaches (params : Array Float) (size : Nat) (d : Draft) (slots : Array Float) : Prop :=
  d.instructions.reverse.foldlM (step params) (Array.replicate size 0) = some slots ∧
    slots.size = size

theorem reaches_empty (params : Array Float) (size : Nat) :
    Reaches params size {} (Array.replicate size 0) :=
  ⟨rfl, Array.size_replicate⟩

/-- One instruction: its target is either one of the slots that its operands give back or one that
was not live at all, so the slots that stay live are the other ones and the target. -/
theorem WellFormed.emit {d : Draft} (hd : d.WellFormed) (operation : Operation)
    {operands : List Operand} (hnodup : (slotsOf operands).Nodup)
    (hlive : ∀ i ∈ slotsOf operands, d.Live i) :
    ∃ target d', d.emit operation operands = (.slot target, d') ∧
      d'.instructions = ⟨operation, operands, target⟩ :: d.instructions ∧
      d'.WellFormed ∧ d.slotCount ≤ d'.slotCount ∧ d'.Live target ∧
      ∀ i, d.Live i → i ∉ slotsOf operands → i ≠ target ∧ d'.Live i := by
  have hfree : (release d.free operands).Nodup := by
    rw [release_eq, List.nodup_append]
    refine ⟨List.nodup_reverse.mpr hnodup, hd.nodup, ?_⟩
    intro i hi j hj hij
    exact (hlive i (List.mem_reverse.mp hi)).2 (hij ▸ hj)
  have hmem : ∀ i, i ∈ release d.free operands ↔ i ∈ slotsOf operands ∨ i ∈ d.free := by
    intro i
    rw [release_eq, List.mem_append, List.mem_reverse]
  have hlt : ∀ i ∈ release d.free operands, i < d.slotCount := by
    intro i hi
    rcases (hmem i).mp hi with h | h
    · exact (hlive i h).1
    · exact hd.lt_slotCount i h
  have hkept : ∀ i, d.Live i → i ∉ slotsOf operands → i ∉ release d.free operands := by
    intro i hi hnot h
    rcases (hmem i).mp h with h | h
    · exact hnot h
    · exact hi.2 h
  rw [Draft.emit]
  cases hrel : release d.free operands with
  | nil =>
      refine ⟨d.slotCount, _, rfl, rfl, ⟨List.nodup_nil, ?_⟩, Nat.le_succ _, ?_, ?_⟩
      · exact fun _ h => absurd h List.not_mem_nil
      · exact ⟨Nat.lt_succ_self _, List.not_mem_nil⟩
      · intro i hi _
        exact ⟨Nat.ne_of_lt hi.1, Nat.lt_succ_of_lt hi.1, List.not_mem_nil⟩
  | cons target rest =>
      rw [hrel] at hfree hlt hkept
      obtain ⟨htarget, hrest⟩ := List.nodup_cons.mp hfree
      refine ⟨target, _, rfl, rfl, ⟨hrest, ?_⟩, Nat.le_refl _, ?_, ?_⟩
      · exact fun i hi => hlt i (List.mem_cons_of_mem _ hi)
      · exact ⟨hlt target List.mem_cons_self, htarget⟩
      · intro i hi hnot
        have hout := hkept i hi hnot
        rw [List.mem_cons, not_or] at hout
        exact ⟨hout.1, hi.1, hout.2⟩

end Draft

/-! ## What compiling adds -/

/-- Going from draft `d` to draft `d'`, values were computed into operands: they stand there after
the instructions of `d'`, in slots of their own that were not live before, and every slot that was
live in `d` is live in `d'` and holds what it held. -/
structure Computes (params : Array Float) (d d' : Draft) (operands : List Operand)
    (values : List Float) : Prop where
  wellFormed : d'.WellFormed
  slotCount_le : d.slotCount ≤ d'.slotCount
  live : ∀ i, d.Live i → d'.Live i
  fresh : ∀ i ∈ slotsOf operands, d'.Live i ∧ ¬ d.Live i
  nodup : (slotsOf operands).Nodup
  run : ∀ {size : Nat} {slots : Array Float}, d'.slotCount ≤ size →
    d.Reaches params size slots →
    ∃ slots', d'.Reaches params size slots' ∧ (∀ i, d.Live i → slots'[i]? = slots[i]?) ∧
      operands.mapM (read params slots') = some values

namespace Computes

variable {params : Array Float}

theorem nil {d : Draft} (hd : d.WellFormed) : Computes params d d [] [] where
  wellFormed := hd
  slotCount_le := Nat.le_refl _
  live := fun _ h => h
  fresh := fun _ h => absurd h List.not_mem_nil
  nodup := List.nodup_nil
  run := fun _ hslots => ⟨_, hslots, fun _ _ => rfl, rfl⟩

/-- A value that needs no instruction. -/
theorem constant {d : Draft} (hd : d.WellFormed) {operand : Operand} {value : Float}
    (hslot : operand.slot? = none)
    (hread : ∀ slots, read params slots operand = some value) :
    Computes params d d [operand] [value] where
  wellFormed := hd
  slotCount_le := Nat.le_refl _
  live := fun _ h => h
  fresh := fun i h => absurd h (by simp [slotsOf, hslot])
  nodup := by simp [slotsOf, hslot]
  run := fun _ hslots => ⟨_, hslots, fun _ _ => rfl, by simp [hread]⟩

/-- An operand keeps its value while later instructions leave its slot alone. -/
theorem read_eq_of_live {slots slots' : Array Float} {operand : Operand}
    (h : ∀ i ∈ slotsOf [operand], slots'[i]? = slots[i]?) :
    read params slots' operand = read params slots operand := by
  cases operand with
  | slot i => exact h i (by simp [slotsOf, Operand.slot?])
  | param _ | literal _ => rfl

theorem mapM_singleton {slots : Array Float} {operand : Operand} {value : Float} :
    [operand].mapM (read params slots) = some [value] ↔
      read params slots operand = some value := by
  cases h : read params slots operand <;> simp [h]

/-- The operands of the first expression stay where they are while the others are compiled. -/
theorem cons {d d₁ d₂ : Draft} {operand : Operand} {value : Float} {operands : List Operand}
    {values : List Float} (h₁ : Computes params d d₁ [operand] [value])
    (h₂ : Computes params d₁ d₂ operands values) :
    Computes params d d₂ (operand :: operands) (value :: values) := by
  refine ⟨h₂.wellFormed, Nat.le_trans h₁.slotCount_le h₂.slotCount_le,
    fun i hi => h₂.live i (h₁.live i hi), ?_, ?_, ?_⟩
  · intro i hi
    rw [slotsOf_cons, List.mem_append] at hi
    rcases hi with hi | hi
    · exact ⟨h₂.live i (h₁.fresh i hi).1, (h₁.fresh i hi).2⟩
    · exact ⟨(h₂.fresh i hi).1, fun h => (h₂.fresh i hi).2 (h₁.live i h)⟩
  · rw [slotsOf_cons, List.nodup_append]
    refine ⟨h₁.nodup, h₂.nodup, ?_⟩
    intro i hi j hj hij
    exact (h₂.fresh j hj).2 (hij ▸ (h₁.fresh i hi).1)
  · intro size slots hsize hreach
    obtain ⟨slots₁, hreach₁, hkeep₁, hvalue⟩ :=
      h₁.run (Nat.le_trans h₂.slotCount_le hsize) hreach
    obtain ⟨slots₂, hreach₂, hkeep₂, hvalues⟩ := h₂.run hsize hreach₁
    refine ⟨slots₂, hreach₂, fun i hi => ?_, ?_⟩
    · rw [hkeep₂ i (h₁.live i hi), hkeep₁ i hi]
    · have hsame : read params slots₂ operand = read params slots₁ operand :=
        read_eq_of_live fun i hi => hkeep₂ i (h₁.fresh i hi).1
      rw [mapM_singleton] at hvalue
      rw [List.mapM_cons, hsame, hvalue, hvalues]
      rfl

/-- An instruction on values that were computed computes its result. -/
theorem emit {d d₁ : Draft} {operands : List Operand} {values : List Float}
    (h : Computes params d d₁ operands values) {operation : Operation} {value : Float}
    (hvalue : operation.apply values = some value) {result : Operand} {d₂ : Draft}
    (hresult : d₁.emit operation operands = (result, d₂)) :
    Computes params d d₂ [result] [value] := by
  obtain ⟨target, d₃, hemit, hinstructions, hwf, hcount, htarget, hothers⟩ :=
    h.wellFormed.emit operation h.nodup fun i hi => (h.fresh i hi).1
  obtain ⟨rfl, rfl⟩ := Prod.mk.inj (hresult.symm.trans hemit)
  have hlive : ∀ i, d.Live i → i ≠ target ∧ d₂.Live i := fun i hi =>
    hothers i (h.live i hi) fun hmem => (h.fresh i hmem).2 hi
  refine ⟨hwf, Nat.le_trans h.slotCount_le hcount, fun i hi => (hlive i hi).2, ?_, ?_, ?_⟩
  · intro i hi
    obtain rfl : i = target := by simpa [slotsOf, Operand.slot?] using hi
    exact ⟨htarget, fun hd => (hlive i hd).1 rfl⟩
  · simp [slotsOf, Operand.slot?]
  · intro size slots hsize hreach
    obtain ⟨slots₁, ⟨hrun, hlen⟩, hkeep, hread⟩ := h.run (Nat.le_trans hcount hsize) hreach
    have hlt : target < slots₁.size := by
      rw [hlen]
      exact Nat.lt_of_lt_of_le htarget.1 hsize
    refine ⟨slots₁.set target value hlt, ⟨?_, by rw [Array.size_set, hlen]⟩, ?_, ?_⟩
    · rw [hinstructions, List.reverse_cons, List.foldlM_append, hrun]
      simp [step, hread, hvalue, hlt]
    · intro i hi
      rw [Array.getElem?_set_ne hlt (Ne.symm (hlive i hi).1), hkeep i hi]
    · simp [read, Array.getElem?_set_self hlt]

end Computes

/-! ## Compiling expressions -/

/-- The parameters hold the numbers that names are read as, and calls and operations are read as the
program performs them. -/
structure Scope.Reads (scope : Scope) (params : Array Float) (I : Interpretation Float) : Prop where
  number : ∀ {name i}, scope.param? name = some i →
    ∃ value, I.number? name = some value ∧ params[i]? = some value
  function : ∀ {name apply arity}, scope.function? name = some (apply, arity) →
    I.function? name = some apply
  neg : ∀ a, I.neg a = -a
  binary : ∀ op a b, I.binary op a b = op.apply a b

section Compile

variable {scope : Scope} {params : Array Float} {I : Interpretation Float}

mutual

/-- Whatever compiles has a value, and its instructions compute that value. The induction is on the
expression; a call hands over to the row of its arguments. -/
theorem computes_compileOnto (hI : scope.Reads params I) :
    ∀ (e : Expr Float) {d d' : Draft} {operand : Operand}, d.WellFormed →
      compileOnto scope e d = .ok (operand, d') →
      ∃ value, e.value? I = some value ∧ Computes params d d' [operand] [value]
  | .number value, d, d', operand, hd, h => by
      rw [compileOnto] at h
      cases h
      exact ⟨value, by rw [Expr.value?], .constant hd rfl fun _ => rfl⟩
  | .name name, d, d', operand, hd, h => by
      rw [compileOnto] at h
      split at h
      · next i hi =>
          cases h
          obtain ⟨value, hvalue, hparam⟩ := hI.number hi
          exact ⟨value, by rw [Expr.value?, hvalue], .constant hd rfl fun _ => hparam⟩
      · cases h
  | .neg e, d, d', operand, hd, h => by
      rw [compileOnto] at h
      obtain ⟨⟨a, d₁⟩, he, hemit⟩ := bind_eq_ok h
      obtain ⟨x, hx, hcomputes⟩ := computes_compileOnto hI e hd he
      refine ⟨-x, ?_, hcomputes.emit rfl (Except.ok.inj hemit)⟩
      rw [Expr.value?, hx]
      exact congrArg some (hI.neg x)
  | .binary op l r, d, d', operand, hd, h => by
      rw [compileOnto] at h
      obtain ⟨⟨a, d₁⟩, hl, h⟩ := bind_eq_ok h
      obtain ⟨⟨b, d₂⟩, hr, hemit⟩ := bind_eq_ok h
      obtain ⟨x, hx, hleft⟩ := computes_compileOnto hI l hd hl
      obtain ⟨y, hy, hright⟩ := computes_compileOnto hI r hleft.wellFormed hr
      refine ⟨op.apply x y, ?_, (hleft.cons hright).emit rfl (Except.ok.inj hemit)⟩
      rw [Expr.value?, hx, hy]
      exact congrArg some (hI.binary op x y)
  | .call name arguments, d, d', operand, hd, h => by
      rw [compileOnto] at h
      split at h
      · cases h
      · next apply arity hf =>
          split at h
          · cases h
          · obtain ⟨⟨operands, d₁⟩, hes, hemit⟩ := bind_eq_ok h
            obtain ⟨xs, hxs, hcomputes⟩ := computes_compileAllOnto hI arguments hd hes
            refine ⟨apply xs, ?_, hcomputes.emit rfl (Except.ok.inj hemit)⟩
            rw [Expr.value?, hI.function hf, hxs]

theorem computes_compileAllOnto (hI : scope.Reads params I) :
    ∀ (es : List (Expr Float)) {d d' : Draft} {operands : List Operand}, d.WellFormed →
      compileAllOnto scope es d = .ok (operands, d') →
      ∃ values, Expr.valuesAll? I es = some values ∧ Computes params d d' operands values
  | [], d, d', operands, hd, h => by
      rw [compileAllOnto] at h
      cases h
      exact ⟨[], by rw [Expr.valuesAll?], .nil hd⟩
  | e :: es, d, d', operands, hd, h => by
      rw [compileAllOnto] at h
      obtain ⟨⟨operand, d₁⟩, he, h⟩ := bind_eq_ok h
      obtain ⟨⟨operands', d₂⟩, hes, heq⟩ := bind_eq_ok h
      cases heq
      obtain ⟨x, hx, hfirst⟩ := computes_compileOnto hI e hd he
      obtain ⟨xs, hxs, hothers⟩ := computes_compileAllOnto hI es hfirst.wellFormed hes
      exact ⟨x :: xs, by rw [Expr.valuesAll?, hx, hxs], hfirst.cons hothers⟩

end

end Compile

/-! ## Names among the parameters -/

end Program

/-- What a registry's names, calls and the operations mean on doubles, given numbers for constants
and for variables. A name of constant form is looked up among the constants and any other among the
variables; a call is of an operator, or else of a helper. -/
def Registry.interpretation (r : Registry) (constants inputs : List (String × Float)) :
    Interpretation Float where
  number? name :=
    if Name.isConstant name then constants.lookup name else inputs.lookup name
  function? name :=
    match r.operator? name with
    | some op => some op.apply
    | none => (r.helper? name).map Helper.apply
  neg a := -a
  binary op a b := op.apply a b

namespace Program

theorem lookup_zip {names : List String} {values : List Float} {name : String} {i : Nat}
    (hi : names.idxOf? name = some i) (hlen : values.length = names.length) :
    ∃ value, (names.zip values).lookup name = some value ∧ values[i]? = some value := by
  induction names generalizing values i with
  | nil => cases hi
  | cons n ns ih =>
      obtain ⟨v, vs, rfl⟩ : ∃ v vs, values = v :: vs := by
        cases values with
        | nil => cases hlen
        | cons v vs => exact ⟨v, vs, rfl⟩
      rw [List.idxOf?_cons] at hi
      by_cases hn : n = name
      · subst hn
        obtain rfl : 0 = i := by simpa using hi
        exact ⟨v, by simp, rfl⟩
      · rw [if_neg (by simpa using hn)] at hi
        obtain ⟨j, hj, rfl⟩ := Option.map_eq_some_iff.mp hi
        obtain ⟨value, hlookup, hvalue⟩ := ih hj (Nat.succ.inj hlen)
        refine ⟨value, ?_, by simpa using hvalue⟩
        have hne : (name == n) = false := by simpa using Ne.symm hn
        simpa [List.lookup, hne] using hlookup

/-- Arguments in the order of the parameters are read as the names are. -/
theorem Scope.reads_interpretation (scope : Scope) {constants inputs : List Float}
    (hconstants : constants.length = scope.constantNames.length)
    (hvariables : inputs.length = scope.variableNames.length) :
    scope.Reads (constants ++ inputs).toArray
      (scope.registry.interpretation (scope.constantNames.zip constants)
        (scope.variableNames.zip inputs)) where
  number := by
    intro name i hi
    simp only [Scope.param?] at hi
    simp only [Registry.interpretation, List.getElem?_toArray]
    split at hi
    · next hname =>
        rw [if_pos hname]
        obtain ⟨value, hlookup, hvalue⟩ := lookup_zip hi hconstants
        refine ⟨value, hlookup, ?_⟩
        rw [List.getElem?_append_left (List.getElem?_eq_some_iff.mp hvalue).1, hvalue]
    · next hname =>
        rw [if_neg hname]
        obtain ⟨j, hj, rfl⟩ := Option.map_eq_some_iff.mp hi
        obtain ⟨value, hlookup, hvalue⟩ := lookup_zip hj hvariables
        refine ⟨value, hlookup, ?_⟩
        rw [← hconstants, List.getElem?_append_right (Nat.le_add_left _ _),
          Nat.add_sub_cancel, hvalue]
  function := by
    intro name apply arity h
    simp only [Registry.interpretation]
    cases hop : scope.registry.operator? name with
    | some op =>
        simp only [Scope.function?, hop] at h
        cases h
        rfl
    | none =>
        simp only [Scope.function?, hop] at h
        obtain ⟨helper, hhelper, heq⟩ := Option.map_eq_some_iff.mp h
        cases heq
        simp only [hhelper, Option.map_some]
  neg _ := rfl
  binary _ _ _ := rfl

/-! ## Whole programs -/

/-- What compilation is told about names is what the program keeps. -/
theorem compile_eq_ok {e : Expr Float} {registry : Registry} {p : Program}
    (h : e.compile registry = .ok p) :
    p.constantNames = e.constantNames ∧ p.variableNames = registry.variableNames ∧
      ∃ d, compileOnto ⟨registry, e.constantNames, registry.variableNames⟩ e {} =
          .ok (p.result, d) ∧
        p.instructions = d.instructions.reverse ∧ p.slotCount = d.slotCount := by
  rw [Expr.compile] at h
  obtain ⟨r, hr, heq⟩ := bind_eq_ok h
  cases heq
  exact ⟨rfl, rfl, r.2, hr, rfl, rfl⟩

/-- The value of an expression for numbers in the order of the constants and of the variables of its
program. -/
def valueOf? (e : Expr Float) (registry : Registry) (p : Program)
    (constants inputs : List Float) : Option Float :=
  e.value? (registry.interpretation (p.constantNames.zip constants)
    (p.variableNames.zip inputs))

theorem call_append {e : Expr Float} {registry : Registry} {p : Program}
    (h : e.compile registry = .ok p) (constants inputs : List Float)
    (hconstants : constants.length = p.constantNames.length)
    (hinputs : inputs.length = p.variableNames.length) :
    ∃ value, valueOf? e registry p constants inputs = some value ∧
      p.call? (constants ++ inputs) = some value := by
  obtain ⟨hc, hv, d, hcompile, hinstructions, hcount⟩ := compile_eq_ok h
  rw [hc] at hconstants
  rw [hv] at hinputs
  obtain ⟨value, hvalue, hcomputes⟩ := computes_compileOnto
    (Scope.reads_interpretation ⟨registry, e.constantNames, registry.variableNames⟩
      hconstants hinputs) e Draft.wellFormed_empty hcompile
  refine ⟨value, by rw [valueOf?, hc, hv]; exact hvalue, ?_⟩
  obtain ⟨slots, ⟨hrun, -⟩, -, hread⟩ :=
    hcomputes.run (Nat.le_refl _) (Draft.reaches_empty _ d.slotCount)
  have hlen : (constants ++ inputs).length = p.params.length := by
    rw [params, hc, hv, List.length_append, List.length_append, hconstants, hinputs]
  rw [call?, if_pos hlen, run, hinstructions, hcount, hrun]
  exact Computes.mapM_singleton.mp hread

/-! ## Many rows -/

theorem overwrite_eq {old new : List Float} (h : old.length = new.length) :
    overwrite old new = new := by
  induction old generalizing new with
  | nil =>
      cases new with
      | nil => rfl
      | cons _ _ => cases h
  | cons o os ih =>
      cases new with
      | nil => cases h
      | cons v vs => rw [overwrite, ih (Nat.succ.inj h)]

/-- The arguments that the rows pass through begin with the constants at every row, so each value is
that of its own row. -/
theorem predictFrom_eq {e : Expr Float} {registry : Registry} {p : Program}
    (h : e.compile registry = .ok p) {constants : List Float}
    (hconstants : constants.length = p.constantNames.length) (rows : List (List Float)) :
    ∀ last : List Float, last.length = p.variableNames.length →
      (∀ row ∈ rows, row.length = p.variableNames.length) →
      ∃ values, p.predictFrom (constants ++ last) rows = some values ∧
        List.Forall₂ (fun row value => valueOf? e registry p constants row = some value)
          rows values := by
  induction rows with
  | nil => exact fun _ _ _ => ⟨[], rfl, .nil⟩
  | cons row rows ih =>
      intro last hlast hwidth
      have hrow := hwidth row List.mem_cons_self
      obtain ⟨value, hvalue, hcall⟩ := call_append h constants row hconstants hrow
      obtain ⟨values, hvalues, hall⟩ :=
        ih row hrow fun r hr => hwidth r (List.mem_cons_of_mem _ hr)
      refine ⟨value :: values, ?_, .cons hvalue hall⟩
      have harguments : (constants ++ last).take p.constantNames.length ++
          overwrite ((constants ++ last).drop p.constantNames.length) row =
            constants ++ row := by
        rw [← hconstants, List.take_left, List.drop_left,
          overwrite_eq (hlast.trans hrow.symm)]
      rw [predictFrom]
      simp only [harguments, hcall, hvalues, Option.map_some]

/-- A text that compiles denotes an expression, and its program computes that expression's value.
The parameters are the expression's constants and the registry's variables. With one argument for
each of them a call has a result, so no step reads or writes outside of its table, and the result is
the value of the expression with the names read off the arguments; and every matrix of the right
width has one prediction for each row, which is the value for that row. -/
theorem call_and_predict_eq_value {text : String} {registry : Registry} {p : Program}
    (h : compile text registry = .ok p) :
    ∃ e, parse text = .ok e ∧
      p.constantNames = e.constantNames ∧ p.variableNames = registry.variableNames ∧
      (∀ arguments : List Float, arguments.length = p.params.length →
        ∃ value, p.call? arguments = some value ∧
          e.value? (registry.interpretation
            (p.constantNames.zip (arguments.take p.constantNames.length))
            (p.variableNames.zip (arguments.drop p.constantNames.length))) = some value) ∧
      ∀ (constants : List Float) (x : Matrix), constants.length = p.constantNames.length →
        x.columns = p.variableNames.length →
        ∃ values, p.predict? constants x.columns x.rows = some values ∧
          List.Forall₂ (fun row value =>
            e.value? (registry.interpretation (p.constantNames.zip constants)
              (p.variableNames.zip row)) = some value) x.rows values := by
  rw [compile] at h
  split at h
  · cases h
  · next e he =>
      obtain ⟨hc, hv, -⟩ := compile_eq_ok h
      refine ⟨e, he, hc, hv, ?_, ?_⟩
      · intro arguments hlen
        rw [params, List.length_append] at hlen
        obtain ⟨value, hvalue, hcall⟩ := call_append h
          (arguments.take p.constantNames.length) (arguments.drop p.constantNames.length)
          (by rw [List.length_take]; omega) (by rw [List.length_drop]; omega)
        rw [List.take_append_drop] at hcall
        exact ⟨value, hcall, hvalue⟩
      · intro constants x hconstants hcolumns
        rw [predict?, if_pos ⟨hconstants, hcolumns⟩]
        exact predictFrom_eq h hconstants x.rows _ List.length_replicate fun row hrow =>
          (x.width row hrow).trans hcolumns

/-- Both weighted operators and two variables. -/
def weightedRegistry : Registry :=
  { Registry.weighted "weighted" with
    terminals := [.named (Terminal.var "x1"), .named (Terminal.var "x2")] }

/-- A program whose four results share two slots. -/
def weightedProgram : Program where
  constantNames := ["c1", "c2"]
  variableNames := ["x1", "x2"]
  instructions := [
    ⟨.function Registry.weightedProduct.apply, [.param 0, .param 2], 0⟩,
    ⟨.function Registry.weightedSum.apply, [.slot 0, .param 1], 0⟩,
    ⟨.negate, [.param 3], 1⟩,
    ⟨.binary .sub, [.slot 0, .slot 1], 1⟩]
  slotCount := 2
  result := .slot 1

theorem call_and_predict_weighted :
    compile "wsum(wmul(c1, x1), c2) - -x2" weightedRegistry = .ok weightedProgram ∧
      ∃ e, parse "wsum(wmul(c1, x1), c2) - -x2" = .ok e ∧
        (∃ value, weightedProgram.call? [2, 5, 3, 7] = some value ∧
          e.value? (weightedRegistry.interpretation [("c1", 2), ("c2", 5)]
            [("x1", 3), ("x2", 7)]) = some value) ∧
        ∃ values, weightedProgram.predict? [2, 5] 2 [[3, 7], [0, 1]] = some values ∧
          List.Forall₂ (fun row value =>
            e.value? (weightedRegistry.interpretation [("c1", 2), ("c2", 5)]
              (["x1", "x2"].zip row)) = some value) [[3, 7], [0, 1]] values := by
  have h : compile "wsum(wmul(c1, x1), c2) - -x2" weightedRegistry = .ok weightedProgram := by
    cbv
  obtain ⟨e, he, -, -, hcall, hpredict⟩ := call_and_predict_eq_value h
  refine ⟨h, e, he, hcall [2, 5, 3, 7] rfl, ?_⟩
  exact hpredict [2, 5] ⟨2, [[3, 7], [0, 1]], by simp⟩ rfl rfl

end Program

end SymbolicRegression
