import SymbolicRegression.Proofs.Evaluation
import SymbolicRegression.Proofs.Minimize.Restarts

/-!
# A reported fitness can be computed again

An evaluation reports a number and leaves constants behind, and the two come about on different
ways. The number is what an optimizer claims, or what a second scoring gives. The constants go
through a list that is sorted by name, and whoever wants to use them has to look them up there, in
the order in which the program takes them. `storedScore?` does exactly that: it is the score that
somebody gets who has nothing but the individual that was left, its registry and the data.

The held-out score is computed from the fitted constants, so it is enough that they survive the list.
The score of the other evaluator is the word of its optimizer. The built-in one can be trusted: a
descent gives the value that the objective has at the point that it gives.
-/

namespace SymbolicRegression

namespace Individual

/-- The constants that an individual stores for a program, in the order in which the program takes
them; none if it does not store them all. -/
def stored? (i : Individual) (program : Program) : Option (List Float) :=
  program.constantNames.mapM i.parameters.value?

/-- The score, made finite, of an individual with the constants that it stores. -/
def storedScore? (i : Individual) (registry : Registry) (metric : Metric) (data : Dataset) :
    Option Float := do
  let program ← (i.compile registry).toOption
  let constants ← i.stored? program
  let score ← metric constants program data
  return Number.sanitize score

end Individual

theorem Number.sanitize_sanitize (x : Float) : sanitize (sanitize x) = sanitize x := by
  rw [sanitize, if_pos (isFinite_sanitize x)]

/-! ## Constants that are read back -/

theorem mapM_eq_some_of_getElem? {α β : Type} {f : α → Option β} {xs : List α} {ys : List β}
    (hlength : ys.length = xs.length) (h : ∀ k (hk : k < xs.length), f xs[k] = ys[k]?) :
    xs.mapM f = some ys := by
  induction xs generalizing ys with
  | nil =>
      rw [List.length_nil, List.length_eq_zero_iff] at hlength
      rw [hlength]
      rfl
  | cons x xs ih =>
      obtain ⟨y, ys, rfl⟩ := List.exists_cons_of_length_eq_add_one hlength
      have hfirst : f x = some y := h 0 (Nat.zero_lt_succ _)
      have hrest : xs.mapM f = some ys :=
        ih (Nat.succ.inj hlength) fun k hk => h (k + 1) (Nat.succ_lt_succ hk)
      rw [List.mapM_cons, hfirst, hrest]
      rfl

namespace Fitted

/-- Fitted constants are the stored ones after they have been put into an individual. -/
theorem stored?_apply {fitted : Fitted} (hnodup : fitted.program.constantNames.Nodup)
    (hlength : fitted.params.length = fitted.program.constantNames.length) (i : Individual) :
    (fitted.apply i).stored? fitted.program = some fitted.params :=
  mapM_eq_some_of_getElem? hlength fun _ hk => Parameters.value?_ofList_zip hnodup hlength hk

/-- The score of an individual that fitted constants have been put into is theirs. -/
theorem storedScore?_apply {fitted : Fitted} {i : Individual} {registry : Registry}
    (hprogram : i.compile registry = .ok fitted.program)
    (hnodup : fitted.program.constantNames.Nodup)
    (hlength : fitted.params.length = fitted.program.constantNames.length) (metric : Metric)
    (data : Dataset) :
    (fitted.apply i).storedScore? registry metric data = fitted.rescore metric data := by
  have hsame : (fitted.apply i).compile registry = .ok fitted.program := hprogram
  rw [Individual.storedScore?, hsame, Except.toOption, Option.bind_eq_bind, Option.bind_some,
    stored?_apply hnodup hlength, rescore, Option.map_eq_bind]
  rfl

end Fitted

namespace Program

/-- A fit has one constant for each name, and unless the optimizer gave another number of them, the
constants and the value of the optimizer. -/
theorem fit_cases {program : Program} {i : Individual} {optimizer : Optimizer} {metric : Metric}
    {data : Dataset} {fitted : Fitted}
    (h : program.fit (i.guess program) optimizer metric data = some fitted) :
    fitted.program = program ∧ fitted.params.length = program.constantNames.length ∧
      ∃ outcome,
        optimizer.minimize (fun params => metric params program data) (i.guess program) =
          some outcome ∧
        (outcome.params.length = program.constantNames.length →
          fitted.params = outcome.params ∧ fitted.value = Number.sanitize outcome.value) := by
  have hguess : (i.guess program).length = program.constantNames.length := List.length_map _
  rw [fit] at h
  obtain ⟨outcome, houtcome, h⟩ := Option.bind_eq_some_iff.mp h
  rw [hguess] at h
  split at h
  · next hne =>
      cases h
      exact ⟨rfl, hguess, outcome, houtcome, fun heq => absurd heq hne⟩
  · next heq =>
      cases h
      exact ⟨rfl, not_not.mp heq, outcome, houtcome, fun _ => ⟨rfl, rfl⟩⟩

end Program

/-! ## The value of a descent -/

namespace Modality

/-- Whatever a computation without an outcome would give. -/
def present : Modality Option where
  All P x := ∀ a ∈ x, P a
  all_pure h a ha := by cases ha; exact h
  all_bind hx hf b hb := by
    obtain ⟨a, ha, hb⟩ := Option.bind_eq_some_iff.mp hb
    exact hf a (hx a ha) b hb

/-- There is an outcome, and it has the property. -/
def certain : Modality Option where
  All P x := ∃ a, x = some a ∧ P a
  all_pure h := ⟨_, rfl, h⟩
  all_bind hx hf := by
    obtain ⟨a, rfl, ha⟩ := hx
    exact hf a ha

end Modality

namespace Descent

variable {objective : List Float → Option Float} {guess : List Float}

/-- What a descent gives is a point and the value there, although the objective may be undefined
somewhere else. -/
theorem value_of_minimize (d : Descent) {outcome : Outcome Float}
    (h : d.optimizer.minimize objective guess = some outcome) :
    outcome.params.length = guess.length ∧ objective outcome.params = some outcome.value :=
  d.all_minimize (M := Modality.present) (V := fun x v => objective x = some v)
    (fun _ _ hv => hv) guess outcome h

/-- A descent comes to an end wherever the objective is defined everywhere. -/
theorem isSome_minimize (d : Descent) (h : ∀ x, (objective x).isSome) :
    (d.optimizer.minimize objective guess).isSome := by
  have hdefined : ∀ x, Modality.certain.All (fun v => objective x = some v) (objective x) := by
    intro x
    obtain ⟨v, hv⟩ := Option.isSome_iff_exists.mp (h x)
    exact ⟨v, hv, hv⟩
  obtain ⟨outcome, houtcome, -⟩ := d.all_minimize hdefined guess
  exact Option.isSome_iff_exists.mpr ⟨outcome, houtcome⟩

end Descent

/-! ## The two evaluators -/

namespace Evaluator

variable {registry : Registry} {metric : Metric} {optimizer : Optimizer} {i j : Individual}
  {program : Program} {fitness : Float}

theorem Adjustment.apply_neutral {adjustment : Adjustment}
    (hweight : (adjustment.trainWeight == 0) = true) (hpenalty : adjustment.penalty = none)
    (heldOut train : Float) (constants : Nat) :
    adjustment.apply heldOut train constants = heldOut := by
  have hzero : (adjustment.trainWeight != 0) = false := by
    rw [bne, hweight]
    rfl
  rw [Adjustment.apply, hpenalty, hzero]
  rfl

/-- An evaluation that comes to an end has made a fit, scored it and stored its constants. -/
theorem of_evaluate {data : Dataset} {score : Fitted → Option Float}
    (hvalid : Preorder.isValid i.nodes = true) (hprogram : compile i.text registry = .ok program)
    (h : (ofScore registry metric optimizer data score).evaluate i = some (fitness, j)) :
    ∃ fitted x, program.fit (i.guess program) optimizer metric data = some fitted ∧
      score fitted = some x ∧ fitness = Number.sanitize x ∧
      ∀ data', j.storedScore? registry metric data' = fitted.rescore metric data' := by
  have hcompile := Individual.compile_eq_ok hvalid hprogram
  rw [evaluate_of_ok score hcompile] at h
  obtain ⟨fitted, hfit, h⟩ := Option.bind_eq_some_iff.mp h
  obtain ⟨x, hx, h⟩ := Option.map_eq_some_iff.mp h
  cases h
  obtain ⟨rfl, hlength, -⟩ := Program.fit_cases hfit
  have hnodup := nodup_constantNames_of_compile hprogram
  exact ⟨fitted, x, hfit, hx, rfl, Fitted.storedScore?_apply hcompile hnodup hlength metric⟩

theorem storedScore?_of_holdout {train test : Dataset} {adjustment : Adjustment}
    (hvalid : Preorder.isValid i.nodes = true) (hprogram : compile i.text registry = .ok program)
    (hweight : (adjustment.trainWeight == 0) = true) (hpenalty : adjustment.penalty = none)
    (h : (holdout registry train test metric optimizer adjustment).evaluate i =
      some (fitness, j)) :
    j.storedScore? registry metric test = some fitness := by
  obtain ⟨fitted, x, -, hx, rfl, hstored⟩ := of_evaluate hvalid hprogram h
  obtain ⟨heldOut, hheldOut, hx⟩ := Option.bind_eq_some_iff.mp hx
  cases hx
  rw [Adjustment.apply_neutral hweight hpenalty, hstored, hheldOut]
  -- the score is made finite before and after it is adjusted
  obtain ⟨score, -, rfl⟩ := Option.map_eq_some_iff.mp hheldOut
  rw [Number.sanitize_sanitize]

theorem storedScore?_of_direct {d : Descent} {data : Dataset}
    (hvalid : Preorder.isValid i.nodes = true) (hprogram : compile i.text registry = .ok program)
    (h : (direct registry data metric d.optimizer).evaluate i = some (fitness, j)) :
    j.storedScore? registry metric data = some fitness := by
  obtain ⟨fitted, x, hfit, hx, rfl, hstored⟩ := of_evaluate hvalid hprogram h
  cases hx
  obtain ⟨rfl, hlength, outcome, houtcome, hfitted⟩ := Program.fit_cases hfit
  obtain ⟨hguess, hvalue⟩ := d.value_of_minimize houtcome
  obtain ⟨hparams, hfound⟩ := hfitted (hguess.trans (List.length_map _))
  rw [hstored, Fitted.rescore, hparams, hvalue, hfound, Number.sanitize_sanitize]
  rfl

/-- The fitness that an evaluation reports can be computed again from the constants that it leaves,
read in the order in which the program takes them. For held-out data this holds of every optimizer,
where nothing is added to the score; for one data set it holds of the built-in optimizer. In both
cases an evaluation comes to an end wherever the metric is defined, with any optimizer that gives
an answer. -/
theorem fitness_eq_storedScore (hvalid : Preorder.isValid i.nodes = true)
    (hprogram : compile i.text registry = .ok program) (metric : Metric) :
    (∀ (optimizer : Optimizer) (train test : Dataset) (adjustment : Adjustment),
        (adjustment.trainWeight == 0) = true → adjustment.penalty = none →
        ∀ fitness j,
          (holdout registry train test metric optimizer adjustment).evaluate i =
            some (fitness, j) →
          j.storedScore? registry metric test = some fitness) ∧
      (∀ (d : Descent) (data : Dataset) fitness j,
        (direct registry data metric d.optimizer).evaluate i = some (fitness, j) →
          j.storedScore? registry metric data = some fitness) ∧
      ((∀ params program data, (metric params program data).isSome) →
        (∀ (optimizer : Optimizer) (train test : Dataset) (adjustment : Adjustment),
          (optimizer.minimize (fun params => metric params program train)
              (i.guess program)).isSome →
          ((holdout registry train test metric optimizer adjustment).evaluate i).isSome) ∧
        ∀ (d : Descent) (data : Dataset),
          ((direct registry data metric d.optimizer).evaluate i).isSome) := by
  refine ⟨fun optimizer train test adjustment hweight hpenalty fitness j h =>
      storedScore?_of_holdout hvalid hprogram hweight hpenalty h,
    fun d data fitness j h => storedScore?_of_direct hvalid hprogram h, fun hmetric => ?_⟩
  have hends : ∀ {e : Evaluator} {optimizer : Optimizer} {train : Dataset},
      FitsOn registry metric optimizer train e →
      (optimizer.minimize (fun params => metric params program train) (i.guess program)).isSome →
      (e.evaluate i).isSome := by
    intro e optimizer train he houtcome
    obtain ⟨outcome, houtcome⟩ := Option.isSome_iff_exists.mp houtcome
    obtain ⟨fitness, j, h⟩ :=
      ((evaluate_settles he i).2 program hvalid hprogram).1 outcome houtcome hmetric
    exact Option.isSome_iff_exists.mpr ⟨_, h⟩
  refine ⟨fun optimizer train test adjustment => hends (.holdout test adjustment),
    fun d data => hends .direct ?_⟩
  exact d.isSome_minimize fun params => hmetric params program data

/-- The distance of the first constant from the first target. -/
def firstDistance : Metric := fun params _ data =>
  some (params.headD 0 - data.target.headD 0).abs

/-- A constant that the optimizer claims to be perfect, on held-out data with a weight of negative
zero for the rest, and one that the built-in optimizer finds. -/
theorem fitness_eq_storedScore_staleProduct :
    (∃ fitness j, (holdout Program.weightedRegistry twoSamples twoSamples firstDistance
        (Optimizer.fixed [4] 0) { trainWeight := -0.0 }).evaluate staleProduct =
          some (fitness, j) ∧
        j.storedScore? Program.weightedRegistry firstDistance twoSamples = some fitness) ∧
      ∃ fitness j, (direct Program.weightedRegistry twoSamples firstDistance
        (Descent.optimizer {})).evaluate staleProduct = some (fitness, j) ∧
        j.storedScore? Program.weightedRegistry firstDistance twoSamples = some fitness := by
  have hzero : ((-0.0 : Float) == 0) = true := by decide +kernel
  obtain ⟨hheldOut, hdirect, hends⟩ :=
    fitness_eq_storedScore (i := staleProduct) (by decide) compile_staleProduct firstDistance
  obtain ⟨hendsHeldOut, hendsDirect⟩ := hends fun _ _ _ => rfl
  obtain ⟨⟨fitness, j⟩, h⟩ := Option.isSome_iff_exists.mp
    (hendsHeldOut (Optimizer.fixed [4] 0) twoSamples twoSamples { trainWeight := -0.0 } rfl)
  obtain ⟨⟨fitness', j'⟩, h'⟩ := Option.isSome_iff_exists.mp (hendsDirect {} twoSamples)
  have hagain := hheldOut (Optimizer.fixed [4] 0) twoSamples twoSamples { trainWeight := -0.0 }
    hzero rfl fitness j h
  exact ⟨⟨fitness, j, h, hagain⟩, fitness', j', h', hdirect {} twoSamples fitness' j' h'⟩

end Evaluator

end SymbolicRegression
