import Mathlib.Data.String.Basic
import SymbolicRegression.Fitness
import SymbolicRegression.Proofs.CompiledProgram

/-!
# What an evaluation leaves

An evaluation ends in one of two ways. What is no tree, or has no program, scores the sentinel and is
given back as it was. Otherwise all constants are replaced: each constant of the program is bound
once, to the number that the optimizer found for it, or to the one it started from if the optimizer
gave the wrong number of them. No optimizer can bring about anything in between.

The values of the constants are kept in a list that is sorted by name. Putting a value in is
characterized by what can be read afterwards, for every list; that the names stay sorted, and each of
them single, is an invariant of its own.
-/

namespace SymbolicRegression

namespace Parameters

/-! ## Values by name -/

theorem value?_cons (n : String) (v : Float) (ps : Parameters) (name : String) :
    value? ((n, v) :: ps) name = if n = name then some v else value? ps name := by
  by_cases h : n = name
  · subst h
    simp [value?]
  · simp [value?, beq_false_of_ne h, h]

/-- Reading after writing. -/
theorem value?_insert (name : String) (value : Float) (ps : Parameters) (other : String) :
    value? (insert name value ps) other = if name = other then some value else value? ps other := by
  induction ps with
  | nil => rw [insert, value?_cons]
  | cons p ps ih =>
      obtain ⟨n, v⟩ := p
      rw [insert]
      split
      · rw [value?_cons]
      · split
        · next heq =>
            subst heq
            rw [value?_cons, value?_cons]
            split
            · rfl
            · rfl
        · next hne =>
            rw [value?_cons, value?_cons, ih]
            by_cases hn : n = other
            · rw [if_pos hn, if_pos hn, if_neg fun h => hne (h.trans hn.symm)]
            · rw [if_neg hn, if_neg hn]

theorem value?_foldl_insert (pairs : List (String × Float)) (name : String) :
    ∀ ps : Parameters, name ∉ pairs.map Prod.fst →
      value? (pairs.foldl (fun ps (name, value) => insert name value ps) ps) name =
        value? ps name := by
  induction pairs with
  | nil => exact fun ps _ => rfl
  | cons p pairs ih =>
      intro ps hname
      rw [List.map_cons, List.mem_cons, not_or] at hname
      rw [List.foldl_cons, ih _ hname.2, value?_insert, if_neg (Ne.symm hname.1)]

theorem value?_ofList_of_notMem {pairs : List (String × Float)} {name : String}
    (h : name ∉ pairs.map Prod.fst) : value? (ofList pairs) name = none := by
  rw [ofList, value?_foldl_insert pairs name [] h]
  rfl

/-- Each of a list of distinct names has the value that it is listed with. -/
theorem value?_ofList_zip {names : List String} (hnodup : names.Nodup) {values : List Float}
    (hlength : values.length = names.length) {k : Nat} (hk : k < names.length) :
    value? (ofList (names.zip values)) names[k] = values[k]? := by
  rw [ofList]
  generalize ([] : Parameters) = ps
  induction names generalizing values k ps with
  | nil => exact absurd hk (Nat.not_lt_zero k)
  | cons name names ih =>
      obtain ⟨value, values, rfl⟩ := List.exists_cons_of_length_eq_add_one hlength
      obtain ⟨hname, hnodup⟩ := List.nodup_cons.mp hnodup
      rw [List.zip_cons_cons, List.foldl_cons]
      cases k with
      | zero =>
          have hrest : name ∉ (names.zip values).map Prod.fst := by
            rwa [List.map_fst_zip (by simp at hlength; omega)]
          rw [List.getElem_cons_zero, value?_foldl_insert _ _ _ hrest, value?_insert, if_pos rfl]
          rfl
      | succ k =>
          rw [List.getElem_cons_succ, List.getElem?_cons_succ]
          exact ih hnodup (by simpa using hlength) (by simpa using hk) _

/-! ## Sorted names -/

theorem mem_keys_insert (name : String) (value : Float) (ps : Parameters) (other : String) :
    other ∈ (insert name value ps).map Prod.fst ↔ other = name ∨ other ∈ ps.map Prod.fst := by
  induction ps with
  | nil => simp [insert]
  | cons p ps ih =>
      obtain ⟨n, v⟩ := p
      rw [insert]
      split
      · simp
      · split
        · next heq =>
            subst heq
            simp
        · rw [List.map_cons, List.mem_cons, ih, List.map_cons, List.mem_cons]
          exact or_left_comm

theorem sorted_insert (name : String) (value : Float) {ps : Parameters}
    (h : (ps.map Prod.fst).Pairwise (· < ·)) :
    ((insert name value ps).map Prod.fst).Pairwise (· < ·) := by
  induction ps with
  | nil => exact List.pairwise_singleton _ _
  | cons p ps ih =>
      obtain ⟨n, v⟩ := p
      obtain ⟨hfirst, hrest⟩ := List.pairwise_cons.mp h
      rw [insert]
      split
      · next hlt =>
          refine List.pairwise_cons.mpr ⟨fun other hother => ?_, h⟩
          rcases List.mem_cons.mp hother with rfl | hmem
          · exact hlt
          · exact lt_trans hlt (hfirst other hmem)
      · next hle =>
          split
          · next heq =>
              subst heq
              exact List.pairwise_cons.mpr ⟨hfirst, hrest⟩
          · next hne =>
              refine List.pairwise_cons.mpr ⟨fun other hother => ?_, ih hrest⟩
              rcases (mem_keys_insert name value ps other).mp hother with rfl | hmem
              · exact lt_of_le_of_ne (not_lt.mp hle) (Ne.symm hne)
              · exact hfirst other hmem

theorem keys_foldl_insert (pairs : List (String × Float)) :
    ∀ ps : Parameters, (ps.map Prod.fst).Pairwise (· < ·) →
      ((pairs.foldl (fun ps (name, value) => insert name value ps) ps).map Prod.fst).Pairwise
          (· < ·) ∧
        ∀ name,
          name ∈ (pairs.foldl (fun ps (name, value) => insert name value ps) ps).map Prod.fst ↔
            name ∈ ps.map Prod.fst ∨ name ∈ pairs.map Prod.fst := by
  induction pairs with
  | nil =>
      intro ps h
      exact ⟨h, fun name => by simp⟩
  | cons p pairs ih =>
      intro ps h
      obtain ⟨hsorted, hkeys⟩ := ih _ (sorted_insert p.1 p.2 h)
      refine ⟨hsorted, fun name => ?_⟩
      rw [List.foldl_cons, hkeys, mem_keys_insert, List.map_cons, List.mem_cons]
      constructor
      · rintro ((h | h) | h)
        · exact .inr (.inl h)
        · exact .inl h
        · exact .inr (.inr h)
      · rintro (h | h | h)
        · exact .inl (.inr h)
        · exact .inl (.inl h)
        · exact .inr h

theorem sorted_ofList (pairs : List (String × Float)) :
    ((ofList pairs).map Prod.fst).Pairwise (· < ·) :=
  (keys_foldl_insert pairs [] List.Pairwise.nil).1

theorem mem_keys_ofList (pairs : List (String × Float)) (name : String) :
    name ∈ (ofList pairs).map Prod.fst ↔ name ∈ pairs.map Prod.fst := by
  rw [ofList, (keys_foldl_insert pairs [] List.Pairwise.nil).2]
  simp

end Parameters

/-! ## The constants of a program -/

theorem nodup_foldl_distinct (names : List String) :
    ∀ found : List String, found.Nodup →
      (names.foldl (fun found name =>
        if found.contains name then found else found ++ [name]) found).Nodup := by
  induction names with
  | nil => exact fun found h => h
  | cons name names ih =>
      intro found h
      rw [List.foldl_cons]
      apply ih
      split
      · exact h
      · next hname =>
          rw [List.contains_iff_mem] at hname
          exact h.append (List.nodup_singleton _) (List.disjoint_singleton.mpr hname)

theorem nodup_constantNames_of_compile {text : String} {registry : Registry} {program : Program}
    (h : compile text registry = .ok program) : program.constantNames.Nodup := by
  rw [compile] at h
  split at h
  · cases h
  · rw [(Program.compile_eq_ok h).1, Expr.constantNames]
    exact nodup_foldl_distinct _ [] List.nodup_nil

theorem Number.isFinite_sanitize (x : Float) : (Number.sanitize x).isFinite = true := by
  rw [sanitize]
  split
  · assumption
  · decide +kernel

/-! ## Fitting -/

namespace Program

/-- The constants that a fit ends with: those of the optimizer if it gave one for each place, and
otherwise those that it started from. -/
theorem fit_eq {program : Program} {guess : List Float} {optimizer : Optimizer} {metric : Metric}
    {data : Dataset} {outcome : Outcome Float}
    (h : optimizer.minimize (fun params => metric params program data) guess = some outcome) :
    ∃ value, program.fit guess optimizer metric data =
      some ⟨program, if outcome.params.length = guess.length then outcome.params else guess,
        value⟩ := by
  rw [fit, h]
  by_cases hlength : outcome.params.length = guess.length
  · refine ⟨Number.sanitize outcome.value, ?_⟩
    simp only [Option.bind_eq_bind, Option.bind_some, hlength, ne_eq, not_true_eq_false, if_false,
      if_true]
    rfl
  · refine ⟨Number.nonFiniteSentinel, ?_⟩
    simp only [Option.bind_eq_bind, Option.bind_some, hlength, ne_eq, not_false_eq_true, if_true,
      if_false]
    rfl

end Program

namespace Individual

theorem compile_eq_error {i : Individual} {registry : Registry}
    (h : Preorder.isValid i.nodes = false ∨
      ∃ error, SymbolicRegression.compile i.text registry = .error error) :
    ∃ error, i.compile registry = .error error := by
  rw [compile]
  split
  · next hvalid =>
      rcases h with hinvalid | herror
      · rw [hvalid] at hinvalid
        cases hinvalid
      · exact herror
  · exact ⟨.invalidPreorder, rfl⟩

theorem compile_eq_ok {i : Individual} {registry : Registry} {program : Program}
    (hvalid : Preorder.isValid i.nodes = true)
    (h : SymbolicRegression.compile i.text registry = .ok program) :
    i.compile registry = .ok program := by
  rw [compile, if_pos hvalid, h]

/-- The constants of an individual that an optimizer has been asked about: every constant of the
program once, in increasing order, with the number that was found for it or, if the wrong number of
them came back, with the one that the individual had before, and nothing else. -/
structure Settles (i : Individual) (program : Program) (outcome : Outcome Float)
    (parameters : Parameters) : Prop where
  sorted : (parameters.map Prod.fst).Pairwise (· < ·)
  keys : ∀ name, name ∈ parameters.map Prod.fst ↔ name ∈ program.constantNames
  fitted : outcome.params.length = program.constantNames.length →
    ∀ k (hk : k < program.constantNames.length),
      parameters.value? program.constantNames[k] = outcome.params[k]?
  kept : outcome.params.length ≠ program.constantNames.length →
    ∀ name ∈ program.constantNames,
      parameters.value? name = some ((i.parameters.value? name).getD 0)
  others : ∀ name, name ∉ program.constantNames → parameters.value? name = none

theorem settles_ofList {i : Individual} {program : Program}
    (hnodup : program.constantNames.Nodup) (outcome : Outcome Float) :
    i.Settles program outcome (Parameters.ofList (program.constantNames.zip
      (if outcome.params.length = (i.guess program).length then outcome.params
        else i.guess program))) := by
  have hguess : (i.guess program).length = program.constantNames.length := List.length_map _
  generalize hparams : (if outcome.params.length = (i.guess program).length then outcome.params
    else i.guess program) = params
  have hlength : params.length = program.constantNames.length := by
    rw [← hparams]
    split
    · next heq => rw [heq, hguess]
    · exact hguess
  have hkeys : (program.constantNames.zip params).map Prod.fst = program.constantNames :=
    List.map_fst_zip hlength.ge
  refine ⟨Parameters.sorted_ofList _, fun name => ?_, fun heq k hk => ?_, fun hne name hname => ?_,
    fun name hname => ?_⟩
  · rw [Parameters.mem_keys_ofList, hkeys]
  · rw [Parameters.value?_ofList_zip hnodup hlength hk, ← hparams, hguess, if_pos heq]
  · obtain ⟨k, hk, rfl⟩ := List.getElem_of_mem hname
    rw [Parameters.value?_ofList_zip hnodup hlength hk, ← hparams, hguess, if_neg hne, guess,
      List.getElem?_map, List.getElem?_eq_getElem hk]
    rfl
  · apply Parameters.value?_ofList_of_notMem
    rwa [hkeys]

end Individual

/-! ## Evaluators -/

namespace Evaluator

variable {registry : Registry} {metric : Metric} {optimizer : Optimizer} {train : Dataset}

/-- The evaluators that fit by a metric on the same data: one is content with the value of the fit,
the other scores the fit on held-out data. -/
inductive FitsOn (registry : Registry) (metric : Metric) (optimizer : Optimizer) (train : Dataset) :
    Evaluator → Prop
  | direct : FitsOn registry metric optimizer train (direct registry train metric optimizer)
  | holdout (test : Dataset) (adjustment : Adjustment) :
      FitsOn registry metric optimizer train
        (holdout registry train test metric optimizer adjustment)

/-- Both evaluators score a fit by a function that has a result wherever the metric has one. -/
theorem FitsOn.exists_fitness {e : Evaluator} (h : FitsOn registry metric optimizer train e) :
    ∃ fitness : Fitted → Option Float, e = ofScore registry metric optimizer train fitness ∧
      ((∀ params program data, (metric params program data).isSome) →
        ∀ fitted, (fitness fitted).isSome) := by
  cases h with
  | direct => exact ⟨_, rfl, fun _ _ => rfl⟩
  | holdout test adjustment =>
      refine ⟨_, rfl, fun hmetric fitted => ?_⟩
      obtain ⟨score, hscore⟩ :=
        Option.isSome_iff_exists.mp (hmetric fitted.params fitted.program test)
      simp [Fitted.rescore, hscore]

theorem evaluate_of_error (fitness : Fitted → Option Float) {i : Individual} {error : CompileError}
    (h : i.compile registry = .error error) :
    (ofScore registry metric optimizer train fitness).evaluate i =
      some (Number.nonFiniteSentinel, i) := by
  simp only [ofScore, h]

theorem evaluate_of_ok (fitness : Fitted → Option Float) {i : Individual} {program : Program}
    (h : i.compile registry = .ok program) :
    (ofScore registry metric optimizer train fitness).evaluate i =
      (program.fit (i.guess program) optimizer metric train).bind fun fitted =>
        (fitness fitted).map fun score => (Number.sanitize score, fitted.apply i) := by
  simp only [ofScore, h, Option.bind_eq_bind, Option.map_eq_bind, Option.pure_def, Function.comp_def]

/-- An evaluation by fitting, whatever the optimizer gives back. What is no tree or has no program
scores the sentinel and keeps its constants. Otherwise there is a result wherever optimizer and
metric have one, and every result has the same nodes, a finite fitness, and for constants what the
optimizer settled. -/
theorem evaluate_settles {e : Evaluator} (he : FitsOn registry metric optimizer train e)
    (i : Individual) :
    ((Preorder.isValid i.nodes = false ∨ ∃ error, compile i.text registry = .error error) →
        e.evaluate i = some (Number.nonFiniteSentinel, i)) ∧
      ∀ program, Preorder.isValid i.nodes = true → compile i.text registry = .ok program →
        (∀ outcome,
          optimizer.minimize (fun params => metric params program train) (i.guess program) =
              some outcome →
            (∀ params program data, (metric params program data).isSome) →
            ∃ fitness j, e.evaluate i = some (fitness, j)) ∧
        ∀ fitness j, e.evaluate i = some (fitness, j) →
          j.nodes = i.nodes ∧ fitness.isFinite = true ∧
          ∃ outcome,
            optimizer.minimize (fun params => metric params program train) (i.guess program) =
              some outcome ∧
            i.Settles program outcome j.parameters := by
  obtain ⟨score, rfl, hscore⟩ := he.exists_fitness
  refine ⟨fun h => ?_, fun program hvalid hprogram => ?_⟩
  · obtain ⟨error, herror⟩ := Individual.compile_eq_error h
    exact evaluate_of_error score herror
  rw [evaluate_of_ok score (Individual.compile_eq_ok hvalid hprogram)]
  refine ⟨fun outcome houtcome hmetric => ?_, fun fitness j h => ?_⟩
  · obtain ⟨value, hfit⟩ := Program.fit_eq houtcome
    obtain ⟨x, hx⟩ := Option.isSome_iff_exists.mp (hscore hmetric _)
    rw [hfit, Option.bind_some, hx]
    exact ⟨_, _, rfl⟩
  · obtain ⟨fitted, hfit, h⟩ := Option.bind_eq_some_iff.mp h
    obtain ⟨x, -, h⟩ := Option.map_eq_some_iff.mp h
    cases h
    cases houtcome : optimizer.minimize (fun params => metric params program train)
        (i.guess program) with
    | none =>
        rw [Program.fit, houtcome] at hfit
        cases hfit
    | some outcome =>
        obtain ⟨value, heq⟩ := Program.fit_eq houtcome
        rw [heq] at hfit
        cases hfit
        exact ⟨rfl, Number.isFinite_sanitize x, outcome, rfl,
          Individual.settles_ofList (nodup_constantNames_of_compile hprogram) outcome⟩

/-- The listing of `wmul(c1, x1)`, with a constant that is left from another tree. -/
def staleProduct : Individual where
  nodes := [.operator Registry.weightedProduct, .terminal (Terminal.const "c1"),
    .terminal (Terminal.var "x1")]
  parameters := [("c1", 3), ("c7", 9)]

def productProgram : Program where
  constantNames := ["c1"]
  variableNames := ["x1", "x2"]
  instructions := [⟨.function Registry.weightedProduct.apply, [.param 0, .param 1], 0⟩]
  slotCount := 1
  result := .slot 0

theorem compile_staleProduct :
    compile staleProduct.text Program.weightedRegistry = .ok productProgram := by
  rw [show staleProduct.text = "wmul(c1, x1)" by decide]
  cbv

def twoSamples : Dataset where
  features := ⟨2, [[1, 0], [2, 0]], by simp⟩
  target := [2, 4]
  weights := none
  variableNames := []
  target_length := rfl
  weights_length := by simp

/-- Two numbers come back for one constant, and an undefined value. -/
theorem evaluate_settles_staleProduct :
    ∃ fitness j, (holdout Program.weightedRegistry twoSamples twoSamples (fun _ _ _ => some 0)
        (Optimizer.fixed [4, 5] (0 / 0)) {}).evaluate staleProduct = some (fitness, j) ∧
      j.nodes = staleProduct.nodes ∧ fitness.isFinite = true ∧
      j.parameters.value? "c1" = some 3 ∧ j.parameters.value? "c7" = none := by
  have he : FitsOn Program.weightedRegistry (fun _ _ _ => some 0)
      (Optimizer.fixed [4, 5] (0 / 0)) twoSamples
      (holdout Program.weightedRegistry twoSamples twoSamples (fun _ _ _ => some 0)
        (Optimizer.fixed [4, 5] (0 / 0)) {}) := .holdout twoSamples {}
  obtain ⟨-, hsettles⟩ := evaluate_settles he staleProduct
  obtain ⟨hsome, hresult⟩ := hsettles productProgram (by decide) compile_staleProduct
  obtain ⟨fitness, j, h⟩ := hsome ⟨[4, 5], 0 / 0, 0⟩ rfl fun _ _ _ => rfl
  obtain ⟨hnodes, hfinite, outcome, houtcome, hsettled⟩ := hresult fitness j h
  cases houtcome
  exact ⟨fitness, j, h, hnodes, hfinite, hsettled.kept (by decide) "c1" (by decide),
    hsettled.others "c7" (by decide)⟩

end Evaluator

end SymbolicRegression
