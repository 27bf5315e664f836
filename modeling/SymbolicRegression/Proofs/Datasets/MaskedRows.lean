import SymbolicRegression.Metric.Basic
import SymbolicRegression.Proofs.Datasets.Rows
import SymbolicRegression.Proofs.Doubles.SignedZeros
import SymbolicRegression.Proofs.Evaluation

/-!
# Rows of weight zero

A weighted mean multiplies every loss with the weight of its row, so that a row of weight zero adds
zero to the sum and nothing to the weights: it could as well have been left out. That is true as
long as its loss is a finite number. A zero times an infinity or times an undefined number is
undefined, and one such row is enough for the whole score to be replaced.

Both scores are read off lists of weights and losses, one for each sample. The predictions of a row
do not depend on the other rows, so removing rows removes their entries and changes no other one;
what is left to compare are two sums over a list and over a part of it.
-/

namespace SymbolicRegression

open Number (sanitize nonFiniteSentinel nanToNum)

/-! ## Weighted means -/

namespace Loss

/-- The mean of losses with their weights. -/
def weightedMean (terms : List (Float × Float)) : Float :=
  let total := Scalar.sum (terms.map Prod.fst)
  if total == 0 then nonFiniteSentinel
  else Scalar.sum (terms.map fun t => t.1 * t.2) / total

theorem sanitize_sentinel : sanitize nonFiniteSentinel = nonFiniteSentinel := by
  rw [sanitize, if_pos (by decide +kernel)]

variable {α : Type} {l : List α} {f : α → Float × Float} {p : α → Bool}

/-- Finite losses of weight zero can be left out. -/
theorem sameValue_weightedMean_filter (hzero : ∀ i ∈ l, p i = false → ((f i).1 == 0) = true)
    (hfinite : ∀ i ∈ l, p i = false → (f i).2.isFinite = true) :
    SameValue (weightedMean (l.map f)) (weightedMean ((l.filter p).map f)) := by
  have htotal : SameValue (Scalar.sum (l.map fun i => (f i).1))
      (Scalar.sum ((l.filter p).map fun i => (f i).1)) := sameValue_sum_filter hzero
  have hsum : SameValue (Scalar.sum (l.map fun i => (f i).1 * (f i).2))
      (Scalar.sum ((l.filter p).map fun i => (f i).1 * (f i).2)) :=
    sameValue_sum_filter fun i hi hp => mul_beq_zero (hzero i hi hp) (hfinite i hi hp)
  simp only [weightedMean, List.map_map, Function.comp_def, htotal.beq_zero]
  split
  · exact .refl _
  · next hne => exact hsum.div htotal hne

/-- A loss of weight zero that is not finite leaves no score. -/
theorem sanitize_weightedMean_of_not_finite
    (h : ∃ i ∈ l, ((f i).1 == 0) = true ∧ (f i).2.isFinite = false) :
    sanitize (weightedMean (l.map f)) = nonFiniteSentinel := by
  obtain ⟨i, hi, hzero, hinfinite⟩ := h
  rw [weightedMean]
  split
  · exact sanitize_sentinel
  · apply sanitize_of_isNaN
    apply isNaN_div
    apply isNaN_sum
    rw [List.map_map]
    exact ⟨_, List.mem_map_of_mem hi, isNaN_mul hzero hinfinite⟩

end Loss

/-! ## The terms of a score -/

/-- Has the row a weight, and is it zero? -/
def Sample.masked (s : Sample) : Bool :=
  s.weight.any (· == 0)

/-- The samples that are not of weight zero. -/
def Dataset.unmasked (d : Dataset) : Dataset :=
  d.select ((List.finRange d.rowCount).filter fun i => !(d.sample i).masked)

namespace Metric

/-- The weight of a sample and the loss of its cleaned prediction. -/
def term (loss : Loss) (value : List Float → Float) (s : Sample) : Float × Float :=
  (s.weight.getD 0, loss (nanToNum (value s.features)) s.target)

theorem mean_eq {loss : Loss} {constants : List Float} {program : Program} {d : Dataset}
    {value : List Float → Float} (hweights : d.weights.isSome = true)
    (hpredictions : predictions? constants program d = some (d.features.rows.map value)) :
    mean loss constants program d =
      some (sanitize (Loss.weightedMean (d.samples.map (term loss value)))) := by
  obtain ⟨w, hw⟩ := Option.isSome_iff_exists.1 hweights
  have hlosses : loss.points ((d.features.rows.map value).map nanToNum) d.target =
      d.samples.map fun s => (term loss value s).2 := by
    rw [Loss.points, ← d.map_features_samples, ← d.map_target_samples, List.map_map, List.map_map,
      List.zipWith_map, List.zipWith_self]
    rfl
  have hproducts : List.zipWith (· * ·) w (d.samples.map fun s => (term loss value s).2) =
      d.samples.map fun s => (term loss value s).1 * (term loss value s).2 := by
    rw [← Dataset.map_weight_samples hw, List.zipWith_map, List.zipWith_self]
    rfl
  have hlength : (d.features.rows.map value).length = d.target.length := by
    rw [List.length_map, d.target_length]
    rfl
  have hlength' : w.length = d.target.length := (d.weights_length w hw).trans d.target_length.symm
  rw [mean, hpredictions]
  dsimp only
  rw [Loss.mean?, if_neg (not_not.2 hlength), hw]
  dsimp only
  rw [if_neg (not_not.2 hlength'), hlosses, hproducts, Loss.weightedMean, List.map_map,
    List.map_map, ← Dataset.map_weight_samples hw]
  change Option.map sanitize (if Scalar.sum (d.samples.map (Prod.fst ∘ term loss value)) == 0
    then _ else _) = _
  split
  · rfl
  · rfl

/-- A program that was compiled has a value for every row of the right width, and the prediction for
a row is its value, whatever the other rows are. -/
theorem exists_value {text : String} {registry : Registry} {program : Program}
    (h : compile text registry = .ok program) {constants : List Float}
    (hconstants : constants.length = program.constantNames.length) :
    ∃ value : List Float → Float,
      (∀ row, row.length = program.variableNames.length →
        program.call? (constants ++ row) = some (value row)) ∧
      ∀ d : Dataset, d.features.columns = program.variableNames.length →
        predictions? constants program d = some (d.features.rows.map value) := by
  rw [compile] at h
  split at h
  · cases h
  · next e he =>
    refine ⟨fun row => (Program.valueOf? e registry program constants row).getD 0, ?_, ?_⟩
    · intro row hrow
      obtain ⟨value, hvalue, hcall⟩ := Program.call_append h constants row hconstants hrow
      dsimp only
      rw [hcall, hvalue, Option.getD_some]
    · intro d hcolumns
      obtain ⟨values, hvalues, hall⟩ := Program.predictFrom_eq h hconstants d.features.rows _
        List.length_replicate fun row hrow => (d.features.width row hrow).trans hcolumns
      rw [predictions?, Program.predict?, if_pos ⟨hconstants, hcolumns⟩, hvalues, Option.some_inj,
        eq_comm, ← List.forall₂_eq_eq_eq, List.forall₂_map_left_iff]
      exact hall.imp fun row value hvalue => by rw [hvalue, Option.getD_some]

theorem mean_of_not_fits {loss : Loss} {constants : List Float} {program : Program} {d : Dataset}
    (h : ¬(constants.length = program.constantNames.length ∧
      d.features.columns = program.variableNames.length)) :
    mean loss constants program d = some nonFiniteSentinel := by
  rw [mean, predictions?, Program.predict?, if_neg h]

theorem term_of_masked {loss : Loss} {value : List Float → Float} {s : Sample}
    (h : s.masked = true) : ((term loss value s).1 == 0) = true := by
  rw [Sample.masked, Option.any_eq_true] at h
  obtain ⟨w, hw, hzero⟩ := h
  rw [term, hw]
  exact hzero

/-- Only the sentinel equals the sentinel. -/
theorem sentinel_beq_iff {x : Float} : (nonFiniteSentinel == x) = true ↔ x = nonFiniteSentinel := by
  have hsentinel : Binary.ofFloat? nonFiniteSentinel = some ⟨false, 7105427357601002, 47⟩ := by
    decide +kernel
  constructor
  · intro h
    obtain ⟨hdefined, hrank⟩ := FloatOrder.beq_iff.1 h
    exact Binary.eq_of_beq hsentinel (by decide)
      (FloatOrder.beq_iff.2 ⟨hdefined.symm, hrank.symm⟩)
  · rintro rfl
    decide +kernel

/-- Leaving out the rows of weight zero gives the same score exactly if their losses are finite, or
if there is no score without them either. The only other score that the rows can leave is the
sentinel. -/
theorem mean_unmasked_iff {text : String} {registry : Registry} {program : Program}
    (h : compile text registry = .ok program) (loss : Loss) (constants : List Float) (d : Dataset)
    (hweights : d.weights.isSome = true) :
    ∃ score rest, mean loss constants program d = some score ∧
      mean loss constants program d.unmasked = some rest ∧
      ((score == rest) = true ↔
        (∀ i value, (d.sample i).masked = true →
          program.call? (constants ++ (d.sample i).features) = some value →
          (loss (nanToNum value) (d.sample i).target).isFinite = true) ∨
        rest = nonFiniteSentinel) ∧
      ((score == rest) = true ∨ score = nonFiniteSentinel) := by
  have part := Dataset.selects_select d
    ((List.finRange d.rowCount).filter fun i => !(d.sample i).masked)
  by_cases hfits : constants.length = program.constantNames.length ∧
      d.features.columns = program.variableNames.length
  · obtain ⟨value, hcall, hpredict⟩ := exists_value h hfits.1
    have hscore : mean loss constants program d = _ := mean_eq hweights (hpredict d hfits.2)
    have hrest : mean loss constants program d.unmasked = _ :=
      mean_eq (part.weighted.trans hweights)
        (hpredict d.unmasked (part.columns.trans hfits.2))
    rw [show d.unmasked.samples = _ from part.samples, List.map_map] at hrest
    rw [Dataset.samples, List.map_map] at hscore
    refine ⟨_, _, hscore, hrest, ?_⟩
    have hzero : ∀ i ∈ List.finRange d.rowCount, (!(d.sample i).masked) = false →
        ((term loss value (d.sample i)).1 == 0) = true := fun i _ hi =>
      term_of_masked (by simpa using hi)
    have hvalue : ∀ i, program.call? (constants ++ (d.sample i).features) =
        some (value (d.sample i).features) := fun i =>
      hcall _ ((d.features.width _ (List.get_mem ..)).trans hfits.2)
    by_cases hfinite : ∀ i, (d.sample i).masked = true →
        (term loss value (d.sample i)).2.isFinite = true
    · have hsame := (Loss.sameValue_weightedMean_filter hzero fun i _ hi =>
        hfinite i (by simpa using hi)).sanitize
      have hbeq := hsame.beq
        (FloatOrder.isNaN_eq_false_of_isFinite (Number.isFinite_sanitize _))
      refine ⟨iff_of_true hbeq (.inl fun i v hi hv => ?_), .inl hbeq⟩
      obtain rfl := Option.some.inj ((hvalue i).symm.trans hv)
      exact hfinite i hi
    · push Not at hfinite
      obtain ⟨i, hi, hinfinite⟩ := hfinite
      have hsentinel := Loss.sanitize_weightedMean_of_not_finite
        (f := term loss value ∘ d.sample) ⟨i, List.mem_finRange i, term_of_masked hi, by
          simpa using hinfinite⟩
      rw [hsentinel, sentinel_beq_iff]
      refine ⟨⟨.inr, ?_⟩, .inr rfl⟩
      rintro (hall | hrest)
      · exact absurd (hall i _ hi (hvalue i)) hinfinite
      · exact hrest
  · have hfits' : ¬(constants.length = program.constantNames.length ∧
        d.unmasked.features.columns = program.variableNames.length) := hfits
    refine ⟨_, _, mean_of_not_fits hfits, mean_of_not_fits hfits', ?_, .inr rfl⟩
    exact iff_of_true (by decide +kernel) (.inr rfl)

/-- Two samples, of which the second one has no weight and a target that was misread. -/
def misreadSamples : Dataset where
  features := ⟨2, [[1, 0], [3, 0]], by simp⟩
  target := [2, 1e200]
  weights := some [1, 0]
  variableNames := []
  target_length := rfl
  weights_length := by simp [Matrix.rowCount]

/-- The distance from the misread target is a finite number, so that the mean distance is the same
without it. -/
theorem mean_unmasked_misreadSamples :
    compile "wmul(c1, x1)" Program.weightedRegistry = .ok Evaluator.productProgram ∧
    misreadSamples.weights.isSome = true ∧
    ∃ score rest, mean Loss.absolute [1] Evaluator.productProgram misreadSamples = some score ∧
      mean Loss.absolute [1] Evaluator.productProgram misreadSamples.unmasked = some rest ∧
      (score == rest) = true := by
  have hcompile : compile "wmul(c1, x1)" Program.weightedRegistry =
      .ok Evaluator.productProgram := by cbv
  have hfinite : ∀ i, (misreadSamples.sample i).masked = true →
      (Evaluator.productProgram.call? ([1] ++ (misreadSamples.sample i).features)).all (fun v =>
        (Loss.absolute (nanToNum v) (misreadSamples.sample i).target).isFinite) = true := by
    decide +kernel
  obtain ⟨score, rest, hscore, hrest, hiff, -⟩ :=
    mean_unmasked_iff hcompile Loss.absolute [1] misreadSamples rfl
  refine ⟨hcompile, rfl, score, rest, hscore, hrest, hiff.2 (.inl fun i v hi hv => ?_)⟩
  exact (Option.all_eq_true _ _).1 (hfinite i hi) v hv

/-- The square of that distance is infinite, and a weight of zero does not undo this: the mean
square is the sentinel, although it is one without the misread sample. -/
theorem mean_misreadSamples_ne :
    compile "wmul(c1, x1)" Program.weightedRegistry = .ok Evaluator.productProgram ∧
    misreadSamples.weights.isSome = true ∧
    ∃ score rest, mean Loss.squared [1] Evaluator.productProgram misreadSamples = some score ∧
      mean Loss.squared [1] Evaluator.productProgram misreadSamples.unmasked = some rest ∧
      score = nonFiniteSentinel ∧ (rest == 1) = true ∧ (score == rest) = false := by
  have hsentinel : (mean Loss.squared [1] Evaluator.productProgram misreadSamples).any
      (nonFiniteSentinel == ·) = true := by decide +kernel
  have hone : (mean Loss.squared [1] Evaluator.productProgram misreadSamples.unmasked).any
      (· == 1) = true := by decide +kernel
  obtain ⟨score, hscore, hsentinel⟩ := (Option.any_eq_true _ _).1 hsentinel
  obtain ⟨rest, hrest, hone⟩ := (Option.any_eq_true _ _).1 hone
  obtain rfl := sentinel_beq_iff.1 hsentinel
  refine ⟨by cbv, rfl, _, rest, hscore, hrest, rfl, hone, ?_⟩
  rw [← Bool.not_eq_true, sentinel_beq_iff]
  rintro rfl
  exact absurd hone (by decide +kernel)

end Metric

end SymbolicRegression
