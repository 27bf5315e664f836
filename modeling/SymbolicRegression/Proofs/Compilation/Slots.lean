import SymbolicRegression.Proofs.CompiledProgram

/-!
# How many slots a program has

The value of an operation stays in a slot until the operation around it reads it. So while the
operands of an operation are computed from left to right, those that are done hold a slot each, unless
they are numbers or names, and the next one needs its own slots beside them. `Expr.slotNeed` counts
what is needed at the most.

A program has exactly that many slots. While an expression is compiled every slot that has been handed
out is either held, by a value that is still to be read, or free, and never both and none of them
twice. This is an equation between lists, `Draft.Holds`. A new slot is handed out only where none is
free, and then every slot is held; so the number of slots is the largest number that was ever held.
The values that are read are those that are held: each of them is read once, and at the end only the
result is left.
-/

namespace SymbolicRegression

namespace Expr

variable {K : Type}

/-- How many slots the value of an expression takes: one, or none if it is a number or a name. -/
def heldSlots : Expr K → Nat
  | number _ => 0
  | name _ => 0
  | _ => 1

mutual

/-- The number of slots that it takes to compute an expression. An operation takes at least the one
for its own value. -/
def slotNeed : Expr K → Nat
  | number _ => 0
  | name _ => 0
  | neg e => max 1 e.slotNeed
  | binary _ l r => max 1 (max l.slotNeed (r.slotNeed + l.heldSlots))
  | call _ arguments => max 1 (slotNeedAll 0 arguments)

/-- The largest number of slots that it takes to compute one of the expressions and to hold, beside
`held` others, the values of those before it. -/
def slotNeedAll (held : Nat) : List (Expr K) → Nat
  | [] => 0
  | e :: es => max (e.slotNeed + held) (slotNeedAll (held + e.heldSlots) es)

end

end Expr

namespace Program

/-- The slots that hold a value which is still to be read, after instructions of which the last one
comes first. An instruction reads values that are held, none of them twice, and they are held no
longer; then its target holds its result, and has to have held nothing. -/
inductive Holding : List Instruction → List Nat → Prop
  | start : Holding [] []
  | step {instructions : List Instruction} {i : Instruction} {held others : List Nat}
      (h : Holding instructions held) (hread : held.Perm (others ++ slotsOf i.operands))
      (hnodup : held.Nodup) (htarget : i.target ∉ others) :
      Holding (i :: instructions) (others ++ [i.target])

namespace Draft

/-- Every slot that has been handed out is held or free, not both, and listed once. -/
structure Holds (d : Draft) (held : List Nat) : Prop where
  partition : (held ++ d.free).Perm (List.range d.slotCount)
  holding : Holding d.instructions held

variable {d : Draft} {held : List Nat}

theorem holds_empty : Holds {} [] :=
  ⟨List.Perm.refl _, .start⟩

theorem Holds.nodup (h : d.Holds held) : held.Nodup :=
  (List.nodup_append.mp (h.partition.nodup_iff.mpr List.nodup_range)).1

theorem Holds.length_le (h : d.Holds held) : held.length ≤ d.slotCount := by
  have hlength := h.partition.length_eq
  rw [List.length_append, List.length_range] at hlength
  omega

/-- Operands that stand in no slots are held without one. -/
theorem Holds.append_of_slotsOf_eq_nil {operands : List Operand} (h : d.Holds held)
    (hnone : slotsOf operands = []) : d.Holds (held ++ slotsOf operands) := by
  rw [hnone, List.append_nil]
  exact h

/-- One instruction: the operands are read, and their slots are free when the target is chosen. -/
theorem Holds.emit {operands : List Operand} (h : d.Holds (held ++ slotsOf operands))
    (operation : Operation) {result : Operand} {d' : Draft}
    (hemit : d.emit operation operands = (result, d')) :
    d'.Holds (held ++ slotsOf [result]) ∧ (slotsOf [result]).length = 1 ∧
      d'.slotCount = max d.slotCount (held.length + 1) := by
  have hreleased : (held ++ release d.free operands).Perm (List.range d.slotCount) := by
    refine List.Perm.trans ?_ h.partition
    rw [release_eq, List.append_assoc]
    exact ((List.reverse_perm _).append_right _).append_left _
  have hlength := hreleased.length_eq
  rw [List.length_append, List.length_range] at hlength
  have hholding : ∀ {target : Nat}, target ∉ held →
      Holding (⟨operation, operands, target⟩ :: d.instructions) (held ++ [target]) :=
    fun htarget => .step h.holding (List.Perm.refl _) h.nodup htarget
  rw [Draft.emit] at hemit
  cases hfree : release d.free operands with
  | nil =>
      -- every slot is held, so there has to be one more
      rw [hfree] at hemit hreleased hlength
      rw [List.append_nil] at hreleased
      cases hemit
      have hnew : d.slotCount ∉ held := fun hmem =>
        Nat.lt_irrefl _ (List.mem_range.mp (hreleased.mem_iff.mp hmem))
      refine ⟨⟨?_, hholding hnew⟩, rfl, ?_⟩
      · rw [List.append_nil, List.range_succ]
        exact hreleased.append_right _
      · simp only [List.length_nil] at hlength
        show d.slotCount + 1 = max d.slotCount (held.length + 1)
        omega
  | cons target free =>
      rw [hfree] at hemit hreleased hlength
      cases hemit
      have hdistinct := hreleased.nodup_iff.mpr List.nodup_range
      have htarget : target ∉ held := fun hmem =>
        (List.nodup_append.mp hdistinct).2.2 _ hmem _ List.mem_cons_self rfl
      refine ⟨⟨?_, hholding htarget⟩, rfl, ?_⟩
      · rw [List.append_assoc]
        exact hreleased
      · simp only [List.length_cons] at hlength
        show d.slotCount = max d.slotCount (held.length + 1)
        omega

end Draft

variable {scope : Scope}

mutual

/-- Compiling an expression holds its value and, at the most, as many slots as it needs beside those
that were held before. -/
theorem holds_compileOnto :
    ∀ (e : Expr Float) {d d' : Draft} {operand : Operand} {held : List Nat}, d.Holds held →
      compileOnto scope e d = .ok (operand, d') →
      d'.Holds (held ++ slotsOf [operand]) ∧ (slotsOf [operand]).length = e.heldSlots ∧
        d'.slotCount = max d.slotCount (held.length + e.slotNeed)
  | .number value, d, d', operand, held, h, hcompile => by
      rw [compileOnto] at hcompile
      cases hcompile
      exact ⟨h.append_of_slotsOf_eq_nil rfl, rfl, (Nat.max_eq_left h.length_le).symm⟩
  | .name name, d, d', operand, held, h, hcompile => by
      rw [compileOnto] at hcompile
      split at hcompile
      · cases hcompile
        exact ⟨h.append_of_slotsOf_eq_nil rfl, rfl, (Nat.max_eq_left h.length_le).symm⟩
      · cases hcompile
  | .neg e, d, d', operand, held, h, hcompile => by
      rw [compileOnto] at hcompile
      obtain ⟨⟨a, d₁⟩, he, hemit⟩ := bind_eq_ok hcompile
      obtain ⟨hheld, -, hcount⟩ := holds_compileOnto e h he
      obtain ⟨hresult, hone, hcount'⟩ := hheld.emit .negate (Except.ok.inj hemit)
      refine ⟨hresult, hone, ?_⟩
      rw [hcount', hcount, Expr.slotNeed]
      omega
  | .binary op l r, d, d', operand, held, h, hcompile => by
      rw [compileOnto] at hcompile
      obtain ⟨⟨a, d₁⟩, hl, hcompile⟩ := bind_eq_ok hcompile
      obtain ⟨⟨b, d₂⟩, hr, hemit⟩ := bind_eq_ok hcompile
      obtain ⟨hleft, hslots, hcount₁⟩ := holds_compileOnto l h hl
      obtain ⟨hright, -, hcount₂⟩ := holds_compileOnto r hleft hr
      have hboth : d₂.Holds (held ++ slotsOf [a, b]) := by
        rw [slotsOf_cons, ← List.append_assoc]
        exact hright
      obtain ⟨hresult, hone, hcount₃⟩ := hboth.emit (.binary op) (Except.ok.inj hemit)
      refine ⟨hresult, hone, ?_⟩
      rw [List.length_append, hslots] at hcount₂
      rw [hcount₃, hcount₂, hcount₁, Expr.slotNeed]
      omega
  | .call name arguments, d, d', operand, held, h, hcompile => by
      rw [compileOnto] at hcompile
      split at hcompile
      · cases hcompile
      · split at hcompile
        · cases hcompile
        · next apply _ _ _ =>
            obtain ⟨⟨operands, d₁⟩, hes, hemit⟩ := bind_eq_ok hcompile
            obtain ⟨hall, hcount⟩ := holds_compileAllOnto arguments (k := 0) h rfl hes
            obtain ⟨hresult, hone, hcount'⟩ := hall.emit (.function apply) (Except.ok.inj hemit)
            refine ⟨hresult, hone, ?_⟩
            rw [hcount', hcount, Expr.slotNeed]
            omega

/-- Of the slots that are held, `k` are held for expressions of the same row. -/
theorem holds_compileAllOnto :
    ∀ (es : List (Expr Float)) {d d' : Draft} {operands : List Operand} {held : List Nat}
      {outer k : Nat}, d.Holds held → held.length = outer + k →
      compileAllOnto scope es d = .ok (operands, d') →
      d'.Holds (held ++ slotsOf operands) ∧
        d'.slotCount = max d.slotCount (outer + Expr.slotNeedAll k es)
  | [], d, d', operands, held, outer, k, h, hheld, hcompile => by
      have hlength := h.length_le
      rw [compileAllOnto] at hcompile
      cases hcompile
      refine ⟨h.append_of_slotsOf_eq_nil rfl, ?_⟩
      rw [Expr.slotNeedAll]
      omega
  | e :: es, d, d', operands, held, outer, k, h, hheld, hcompile => by
      rw [compileAllOnto] at hcompile
      obtain ⟨⟨operand, d₁⟩, he, hcompile⟩ := bind_eq_ok hcompile
      obtain ⟨⟨operands', d₂⟩, hes, heq⟩ := bind_eq_ok hcompile
      cases heq
      obtain ⟨hfirst, hslots, hcount⟩ := holds_compileOnto e h he
      have hheld' : (held ++ slotsOf [operand]).length = outer + (k + e.heldSlots) := by
        rw [List.length_append, hslots, hheld, Nat.add_assoc]
      obtain ⟨hothers, hcount'⟩ := holds_compileAllOnto es hfirst hheld' hes
      rw [List.append_assoc, ← slotsOf_cons] at hothers
      refine ⟨hothers, ?_⟩
      rw [hcount', hcount, Expr.slotNeedAll]
      omega

end

/-- A program has exactly as many slots as its expression needs. No slot is lost, and none is released
twice: while the program runs, every value that has been put into a slot is read once, before the slot
is written again; at the end only the result is left, and the slots that compiling has released are
all the others, each once. -/
theorem slotCount_eq_slotNeed {text : String} {registry : Registry} {p : Program}
    (h : compile text registry = .ok p) :
    ∃ e, parse text = .ok e ∧ p.slotCount = e.slotNeed ∧
      Holding p.instructions.reverse (slotsOf [p.result]) ∧
      ∃ d, compileOnto ⟨registry, p.constantNames, p.variableNames⟩ e {} = .ok (p.result, d) ∧
        (slotsOf [p.result] ++ d.free).Perm (List.range p.slotCount) := by
  rw [compile] at h
  split at h
  · cases h
  · next e hparse =>
      obtain ⟨hconstants, hvariables, d, hcompile, hinstructions, hcount⟩ := compile_eq_ok h
      obtain ⟨hholds, -, hneed⟩ := holds_compileOnto e Draft.holds_empty hcompile
      rw [List.nil_append] at hholds
      refine ⟨e, hparse, ?_, ?_, d, ?_, ?_⟩
      · rw [hcount, hneed]
        simp
      · rw [hinstructions, List.reverse_reverse]
        exact hholds.holding
      · rw [hconstants, hvariables]
        exact hcompile
      · rw [hcount]
        exact hholds.partition

/-- A product whose second factor needs two slots while the first factor is held. -/
def nestedProgram : Program where
  constantNames := ["c1"]
  variableNames := ["x1", "x2"]
  instructions := [
    ⟨.binary .mul, [.param 0, .param 1], 0⟩,
    ⟨.binary .mul, [.param 2, .param 2], 1⟩,
    ⟨.negate, [.param 1], 2⟩,
    ⟨.function Registry.weightedSum.apply, [.slot 1, .slot 2], 2⟩,
    ⟨.function Registry.weightedProduct.apply, [.slot 0, .slot 2], 2⟩]
  slotCount := 3
  result := .slot 2

theorem slotCount_eq_slotNeed_nested :
    compile "wmul(c1*x1, wsum(x2*x2, -x1))" weightedRegistry = .ok nestedProgram ∧
      ∃ e, parse "wmul(c1*x1, wsum(x2*x2, -x1))" = .ok e ∧ e.slotNeed = 3 ∧
        Holding nestedProgram.instructions.reverse [2] := by
  have h : compile "wmul(c1*x1, wsum(x2*x2, -x1))" weightedRegistry = .ok nestedProgram := by
    cbv
  obtain ⟨e, he, hneed, hholding, -⟩ := slotCount_eq_slotNeed h
  exact ⟨h, e, he, hneed.symm, hholding⟩

end Program

end SymbolicRegression
