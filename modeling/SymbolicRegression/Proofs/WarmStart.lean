import Mathlib.Logic.Relation
import SymbolicRegression.Proofs.ReproducibleFitness

/-!
# Fits go on where the last one ended

An evaluation leaves its constants in a list that is sorted by name, and the next one takes them out
in the order in which the program names them. The two orders have nothing to do with each other:
`c10` is sorted before `c2`, and stands wherever the tree has it. What makes the guess of the next fit
the fit of the last one, place by place, is that a program has each of its names once, and that the
same nodes compile to the same program again.

So an individual on which an evaluation has ended is a fixed point of every evaluation whose optimizer
does not move: its nodes stay the same anyway, and its constants are taken out and put back.
-/

namespace SymbolicRegression

/-- Where the optimizer gives an answer, it is the guess. -/
def Optimizer.Stays (optimizer : Optimizer) : Prop :=
  ∀ (objective : List Float → Option Float) guess outcome,
    optimizer.minimize objective guess = some outcome → outcome.params = guess

theorem Optimizer.stays_identity : identity.Stays := by
  intro objective guess outcome h
  obtain ⟨value, -, heq⟩ := Option.bind_eq_some_iff.mp h
  cases heq
  rfl

namespace Fitted

variable {fitted : Fitted} {i : Individual}

/-- The guess reads the fitted constants back in the order of the program. -/
theorem guess_apply (hnodup : fitted.program.constantNames.Nodup)
    (hlength : fitted.params.length = fitted.program.constantNames.length) (i : Individual) :
    (fitted.apply i).guess fitted.program = fitted.params := by
  apply List.ext_getElem?
  intro k
  rw [Individual.guess, List.getElem?_map]
  by_cases hk : k < fitted.program.constantNames.length
  · have hvalue := Parameters.value?_ofList_zip hnodup hlength hk
    have hparam := List.getElem?_eq_getElem (hlength ▸ hk)
    rw [List.getElem?_eq_getElem hk, Option.map_some, hparam]
    rw [hparam] at hvalue
    exact congrArg (fun v => some (v.getD 0)) hvalue
  · rw [List.getElem?_eq_none_iff.mpr (Nat.le_of_not_lt hk),
      List.getElem?_eq_none_iff.mpr (by omega)]
    rfl

/-- Putting the same constants in again changes nothing. -/
theorem apply_apply {fitted' : Fitted} (hprogram : fitted'.program = fitted.program)
    (hparams : fitted'.params = fitted.params) (i : Individual) :
    fitted'.apply (fitted.apply i) = fitted.apply i := by
  simp only [apply, parameters, hprogram, hparams]

end Fitted

namespace Evaluator

variable {registry : Registry} {metric : Metric} {optimizer : Optimizer} {train : Dataset}
  {e : Evaluator} {i j k : Individual} {program : Program} {fitness : Float}

/-- An individual that an evaluation has left holds what its fit ended with. -/
theorem exists_fitted (he : FitsOn registry metric optimizer train e)
    (hcompile : i.compile registry = .ok program) (h : e.evaluate i = some (fitness, j)) :
    ∃ fitted, program.fit (i.guess program) optimizer metric train = some fitted ∧
      j = fitted.apply i := by
  obtain ⟨score, rfl, -⟩ := he.exists_fitness
  rw [evaluate_of_ok score hcompile] at h
  obtain ⟨fitted, hfit, h⟩ := Option.bind_eq_some_iff.mp h
  obtain ⟨x, -, heq⟩ := Option.map_eq_some_iff.mp h
  cases heq
  exact ⟨fitted, hfit, rfl⟩

/-- The same fit of an individual with other constants has the same fitness. -/
theorem evaluate_eq_of_fit (he : FitsOn registry metric optimizer train e)
    (hi : i.compile registry = .ok program) (hj : j.compile registry = .ok program)
    {fitted : Fitted} (hfit : program.fit (i.guess program) optimizer metric train = some fitted)
    (hfit' : program.fit (j.guess program) optimizer metric train = some fitted)
    (h : e.evaluate i = some (fitness, fitted.apply i)) :
    e.evaluate j = some (fitness, fitted.apply j) := by
  obtain ⟨score, rfl, -⟩ := he.exists_fitness
  rw [evaluate_of_ok score hi, hfit, Option.bind_some] at h
  rw [evaluate_of_ok score hj, hfit', Option.bind_some]
  obtain ⟨x, hx, heq⟩ := Option.map_eq_some_iff.mp h
  rw [hx, Option.map_some, (Prod.mk.inj heq).1]

/-- One more evaluation of an individual, by any evaluator whose optimizer does not move. -/
inductive Revisit (registry : Registry) : Individual → Individual → Prop
  | evaluate {metric : Metric} {optimizer : Optimizer} {data : Dataset} {e : Evaluator}
      {i j : Individual} {fitness : Float} (he : FitsOn registry metric optimizer data e)
      (hstays : optimizer.Stays) (h : e.evaluate i = some (fitness, j)) : Revisit registry i j

/-- A fit that did not move puts back what it has taken out. -/
theorem Revisit.eq_self {fitted : Fitted} (hcompile : i.compile registry = .ok program)
    (hprogram : fitted.program = program) (hguess : (fitted.apply i).guess program = fitted.params)
    (h : Revisit registry (fitted.apply i) k) : k = fitted.apply i := by
  have hcompile' : (fitted.apply i).compile registry = .ok program := hcompile
  obtain @⟨metric, optimizer, data, e, _, _, fitness, he, hstays, h⟩ := h
  obtain ⟨fitted', hfit, rfl⟩ := exists_fitted he hcompile' h
  obtain ⟨hprogram', -, outcome, houtcome, hparams⟩ := Program.fit_cases hfit
  have hsame := hstays _ _ _ houtcome
  have hlength : outcome.params.length = program.constantNames.length := by
    rw [hsame]
    exact List.length_map _
  refine Fitted.apply_apply (hprogram'.trans hprogram.symm) ?_ i
  rw [(hparams hlength).1, hsame, hguess]

/-- The next evaluation starts where the last one ended. If the optimizer gives a number for each one
of its guess, then an evaluation, which comes to an end wherever the metric is defined, leaves an
individual with the same program and, as its guess, the numbers that were found, in their places.
That guess is what the optimizer of any other evaluator starts from. An evaluation whose optimizer
does not move can be repeated with the same result, and any number of such evaluations leave the
individual as it is. -/
theorem next_guess_eq_fitted (he : FitsOn registry metric optimizer train e)
    (hvalid : Preorder.isValid i.nodes = true) (hprogram : compile i.text registry = .ok program)
    {outcome : Outcome Float}
    (houtcome : optimizer.minimize (fun params => metric params program train) (i.guess program) =
      some outcome)
    (hlength : outcome.params.length = (i.guess program).length) :
    ((∀ params program data, (metric params program data).isSome) →
        ∃ fitness j, e.evaluate i = some (fitness, j)) ∧
      ∀ fitness j, e.evaluate i = some (fitness, j) →
        j.compile registry = .ok program ∧ j.guess program = outcome.params ∧
        (∀ metric' optimizer' train' e', FitsOn registry metric' optimizer' train' e' →
          ∀ fitness' k, e'.evaluate j = some (fitness', k) →
            ∃ outcome', optimizer'.minimize (fun params => metric' params program train')
              outcome.params = some outcome' ∧ j.Settles program outcome' k.parameters) ∧
        (optimizer.Stays → e.evaluate j = some (fitness, j)) ∧
        ∀ k, Relation.ReflTransGen (Revisit registry) j k → k = j := by
  refine ⟨((evaluate_settles he i).2 program hvalid hprogram).1 outcome houtcome,
    fun fitness j h => ?_⟩
  have hcompile := Individual.compile_eq_ok hvalid hprogram
  obtain ⟨fitted, hfit, rfl⟩ := exists_fitted he hcompile h
  obtain ⟨rfl, hcount, outcome', houtcome', hparams⟩ := Program.fit_cases hfit
  obtain rfl := Option.some.inj (houtcome'.symm.trans houtcome)
  obtain ⟨hparams, -⟩ := hparams (hlength.trans (List.length_map _))
  have hguess := Fitted.guess_apply (nodup_constantNames_of_compile hprogram) hcount i
  have hcompile' : (fitted.apply i).compile registry = .ok fitted.program := hcompile
  refine ⟨hcompile', hguess.trans hparams, fun metric' optimizer' train' e' he' fitness' k hk => ?_,
    fun hstays => ?_, fun k hk => ?_⟩
  · obtain ⟨-, -, outcome'', houtcome'', hsettles⟩ :=
      ((evaluate_settles he' (fitted.apply i)).2 fitted.program hvalid hprogram).2 _ _ hk
    rw [hguess, hparams] at houtcome''
    exact ⟨outcome'', houtcome'', hsettles⟩
  · have hagain : (fitted.apply i).guess fitted.program = i.guess fitted.program :=
      hguess.trans (hparams.trans (hstays _ _ _ houtcome))
    have hevaluate := evaluate_eq_of_fit he hcompile hcompile' hfit (by rw [hagain, hfit]) h
    rwa [Fitted.apply_apply rfl rfl] at hevaluate
  · induction hk with
    | refl => rfl
    | tail _ hstep ih =>
        rw [ih] at hstep
        exact hstep.eq_self hcompile rfl hguess

/-- The listing of `wsum(wmul(c2, x1), c10)`, whose constants stand in another order than they are
sorted in. -/
def unsortedSum : Individual where
  nodes := [.operator Registry.weightedSum, .operator Registry.weightedProduct,
    .terminal (Terminal.const "c2"), .terminal (Terminal.var "x1"),
    .terminal (Terminal.const "c10")]

def unsortedProgram : Program where
  constantNames := ["c2", "c10"]
  variableNames := ["x1", "x2"]
  instructions := [⟨.function Registry.weightedProduct.apply, [.param 0, .param 2], 0⟩,
    ⟨.function Registry.weightedSum.apply, [.slot 0, .param 1], 0⟩]
  slotCount := 1
  result := .slot 0

theorem compile_unsortedSum :
    compile unsortedSum.text Program.weightedRegistry = .ok unsortedProgram := by
  rw [show unsortedSum.text = "wsum(wmul(c2, x1), c10)" by decide]
  cbv

/-- The constant of the later place is stored first and still comes back to its place. -/
theorem next_guess_eq_fitted_unsorted :
    ∃ fitness j, (holdout Program.weightedRegistry twoSamples twoSamples (fun _ _ _ => some 0)
        (Optimizer.fixed [3, 7] 0) {}).evaluate unsortedSum = some (fitness, j) ∧
      j.guess unsortedProgram = [3, 7] ∧
      ∃ fitness', (direct Program.weightedRegistry twoSamples (fun _ _ _ => some 0)
        Optimizer.identity).evaluate j = some (fitness', j) := by
  have he : FitsOn Program.weightedRegistry (fun _ _ _ => some 0) (Optimizer.fixed [3, 7] 0)
      twoSamples (holdout Program.weightedRegistry twoSamples twoSamples (fun _ _ _ => some 0)
        (Optimizer.fixed [3, 7] 0) {}) := .holdout twoSamples {}
  have houtcome : (Optimizer.fixed [3, 7] 0).minimize (m := Option) (fun _ => some 0)
      (unsortedSum.guess unsortedProgram) = some ⟨[3, 7], 0, 0⟩ := rfl
  obtain ⟨hends, hleft⟩ := next_guess_eq_fitted he (by decide) compile_unsortedSum houtcome rfl
  obtain ⟨fitness, j, h⟩ := hends fun _ _ _ => rfl
  obtain ⟨hcompile, hguess, -, -, hfixed⟩ := hleft fitness j h
  have hagain : ∃ fitness' k, (direct Program.weightedRegistry twoSamples (fun _ _ _ => some 0)
      Optimizer.identity).evaluate j = some (fitness', k) := by
    rw [direct, evaluate_of_ok _ hcompile]
    exact ⟨_, _, rfl⟩
  obtain ⟨fitness', k, hk⟩ := hagain
  obtain rfl := hfixed k (.single (.evaluate .direct Optimizer.stays_identity hk))
  exact ⟨fitness, k, h, hguess, fitness', hk⟩

end Evaluator

end SymbolicRegression
