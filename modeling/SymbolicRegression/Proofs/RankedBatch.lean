import Mathlib.Logic.Relation
import SymbolicRegression.Proofs.Doubles.TotalOrder
import SymbolicRegression.Proofs.DrawnBatch
import SymbolicRegression.Proofs.Evaluation

/-!
# What a search returns

A search draws a batch, evaluates what it drew, and sorts. Nothing gets lost or mixed up on the way:
every request of the batch is a candidate or a failure, a candidate comes out of the scoring with the
fitness and the constants of its own evaluation, and sorting rearranges what was scored.

The candidates are scored by several workers, each in its own place of the batch, and nobody knows
which one is done first. So the scoring is a step relation: a step takes any place that is not scored
yet. An evaluation reads and writes its own place only, which makes every place, after any number of
steps, either untouched or what its own evaluation left.
-/

namespace SymbolicRegression

/-! ## Scoring -/

/-- A place of the batch: the individual there, and its fitness once it is scored. -/
structure Slot where
  individual : Individual
  fitness : Option Float

namespace Slot

/-- Not scored yet. -/
def waiting (i : Individual) : Slot := ⟨i, none⟩

/-- What an evaluation leaves. -/
def scored (outcome : Float × Individual) : Slot := ⟨outcome.2, some outcome.1⟩

end Slot

namespace Evaluator

variable {e : Evaluator} {individuals : List Individual} {outcomes : List (Float × Individual)}
  {slots slots' : List Slot}

/-- A worker takes a place that is not scored yet, evaluates the individual there, and leaves in the
same place the fitness and the fitted individual. -/
inductive Step (e : Evaluator) : List Slot → List Slot → Prop where
  | score {slots : List Slot} {k : Nat} {i : Individual} {outcome : Float × Individual} :
      slots[k]? = some (.waiting i) → e.evaluate i = some outcome →
      Step e slots (slots.set k (.scored outcome))

/-- Any places, one after another. -/
abbrev Run (e : Evaluator) : List Slot → List Slot → Prop :=
  Relation.ReflTransGen e.Step

/-- Each place is as it was, or holds what evaluating the individual there alone gives. -/
def Underway (individuals : List Individual) (outcomes : List (Float × Individual))
    (slots : List Slot) : Prop :=
  ∀ k : Nat, slots[k]? = individuals[k]?.map Slot.waiting ∨ slots[k]? = outcomes[k]?.map Slot.scored

/-- A batch is evaluated one by one. -/
theorem forall₂_of_evaluateAll : ∀ {individuals : List Individual}
    {outcomes : List (Float × Individual)}, e.evaluateAll individuals = some outcomes →
      List.Forall₂ (fun i outcome => e.evaluate i = some outcome) individuals outcomes
  | [], _, h => by
      cases h
      exact .nil
  | i :: individuals, outcomes, h => by
      rw [evaluateAll, List.mapM_cons] at h
      obtain ⟨outcome, hfirst, h⟩ := Option.bind_eq_some_iff.mp h
      obtain ⟨rest, hrest, h⟩ := Option.bind_eq_some_iff.mp h
      cases h
      exact .cons hfirst (forall₂_of_evaluateAll hrest)

theorem getElem?_of_forall₂ {k : Nat} {i : Individual}
    (h : List.Forall₂ (fun i outcome => e.evaluate i = some outcome) individuals outcomes)
    (hk : individuals[k]? = some i) : ∃ outcome, outcomes[k]? = some outcome ∧
      e.evaluate i = some outcome := by
  induction h generalizing k with
  | nil =>
      rw [List.getElem?_nil] at hk
      cases hk
  | cons hfirst _ ih =>
      cases k with
      | zero =>
          rw [List.getElem?_cons_zero] at hk
          cases hk
          exact ⟨_, rfl, hfirst⟩
      | succ k => exact ih hk

theorem Step.underway (h : e.Step slots slots')
    (hall : List.Forall₂ (fun i outcome => e.evaluate i = some outcome) individuals outcomes)
    (hslots : Underway individuals outcomes slots) : Underway individuals outcomes slots' := by
  obtain @⟨k, i, outcome, hwaiting, hevaluate⟩ := h
  intro n
  by_cases hn : k = n
  · subst hn
    refine .inr ?_
    rcases hslots k with hbefore | hafter
    · rw [hwaiting, eq_comm, Option.map_eq_some_iff] at hbefore
      obtain ⟨i', hi, heq⟩ := hbefore
      obtain rfl : i' = i := congrArg Slot.individual heq
      obtain ⟨outcome', houtcome, hevaluate'⟩ := getElem?_of_forall₂ hall hi
      rw [hevaluate] at hevaluate'
      cases hevaluate'
      obtain ⟨hlt, -⟩ := List.getElem?_eq_some_iff.mp hwaiting
      rw [List.getElem?_set_self hlt, houtcome]
      rfl
    · rw [hwaiting, eq_comm, Option.map_eq_some_iff] at hafter
      obtain ⟨_, -, heq⟩ := hafter
      cases heq
  · rw [List.getElem?_set_ne hn]
    exact hslots n

theorem Run.underway (h : e.Run (individuals.map .waiting) slots)
    (hall : List.Forall₂ (fun i outcome => e.evaluate i = some outcome) individuals outcomes) :
    Underway individuals outcomes slots := by
  induction h with
  | refl => exact fun k => .inl (List.getElem?_map ..)
  | tail _ hstep ih => exact hstep.underway hall ih

theorem Underway.eq_of_scored (h : Underway individuals outcomes slots)
    (hlength : individuals.length = outcomes.length)
    (hscored : ∀ slot ∈ slots, slot.fitness ≠ none) : slots = outcomes.map .scored := by
  apply List.ext_getElem?
  intro k
  rw [List.getElem?_map]
  rcases h k with hbefore | hafter
  · cases hk : individuals[k]? with
    | some i =>
        rw [hk] at hbefore
        exact absurd rfl (hscored _ (List.mem_of_getElem? hbefore))
    | none =>
        rw [hbefore, hk, List.getElem?_eq_none_iff.mpr]
        · rfl
        · rw [← hlength]
          exact List.getElem?_eq_none_iff.mp hk
  · exact hafter

/-- However far it is, the scoring can be finished: here from the first place to the last. -/
theorem Underway.exists_run (h : Underway individuals outcomes slots)
    (hall : List.Forall₂ (fun i outcome => e.evaluate i = some outcome) individuals outcomes)
    (n : Nat) : ∃ slots', e.Run slots slots' ∧ Underway individuals outcomes slots' ∧
      ∀ k < n, slots'[k]? = outcomes[k]?.map .scored := by
  induction n with
  | zero => exact ⟨slots, .refl, h, fun k hk => absurd hk (Nat.not_lt_zero k)⟩
  | succ n ih =>
      obtain ⟨slots', hrun, hunderway, hdone⟩ := ih
      rcases hunderway n with hbefore | hafter
      · cases hi : individuals[n]? with
        | none =>
            refine ⟨slots', hrun, hunderway, fun k hk => ?_⟩
            rcases Nat.lt_succ_iff_lt_or_eq.mp hk with hlt | rfl
            · exact hdone k hlt
            · rw [hbefore, hi, List.getElem?_eq_none_iff.mpr]
              · rfl
              · rw [← hall.length_eq]
                exact List.getElem?_eq_none_iff.mp hi
        | some i =>
            rw [hi] at hbefore
            obtain ⟨outcome, houtcome, hevaluate⟩ := getElem?_of_forall₂ hall hi
            obtain ⟨hlt, -⟩ := List.getElem?_eq_some_iff.mp hbefore
            have hstep : e.Step slots' (slots'.set n (.scored outcome)) := .score hbefore hevaluate
            refine ⟨_, hrun.tail hstep, hstep.underway hall hunderway, fun k hk => ?_⟩
            rcases Nat.lt_succ_iff_lt_or_eq.mp hk with hless | rfl
            · rw [List.getElem?_set_ne (Nat.ne_of_gt hless)]
              exact hdone k hless
            · rw [List.getElem?_set_self hlt, houtcome]
              rfl
      · refine ⟨slots', hrun, hunderway, fun k hk => ?_⟩
        rcases Nat.lt_succ_iff_lt_or_eq.mp hk with hlt | rfl
        · exact hdone k hlt
        · exact hafter

/-- In whatever order the places are scored: the scoring can always go on to its end, and once every
place is scored, each holds what its own evaluation gave. -/
theorem run_confluent (hall : e.evaluateAll individuals = some outcomes)
    (h : e.Run (individuals.map .waiting) slots) :
    e.Run slots (outcomes.map .scored) ∧
      ((∀ slot ∈ slots, slot.fitness ≠ none) → slots = outcomes.map .scored) := by
  have heach := forall₂_of_evaluateAll hall
  have hunderway := h.underway heach
  refine ⟨?_, hunderway.eq_of_scored heach.length_eq⟩
  obtain ⟨slots', hrun, hunderway', hdone⟩ := hunderway.exists_run heach individuals.length
  suffices heq : slots' = outcomes.map .scored by rwa [← heq]
  apply List.ext_getElem?
  intro k
  rw [List.getElem?_map]
  by_cases hk : k < individuals.length
  · exact hdone k hk
  · have hnone : individuals[k]? = none := List.getElem?_eq_none_iff.mpr (not_lt.mp hk)
    have hnone' : outcomes[k]? = none := by
      rw [List.getElem?_eq_none_iff, ← heach.length_eq]
      exact not_lt.mp hk
    rcases hunderway' k with hbefore | hafter
    · rw [hbefore, hnone, hnone']
      rfl
    · exact hafter

end Evaluator

/-! ## Ranking -/

/-- Sorting by a key rearranges the pairs; those with a smaller key come first, and of those with
equal keys the ones that stood first. -/
theorem exists_places_rankBy {φ : Type} (key : φ → Nat) (individuals : List Individual)
    (fitness : List φ) : ∃ places : List ((Individual × φ) × Nat),
      places.Perm (individuals.zip fitness).zipIdx ∧
        rankBy key individuals fitness = places.map Prod.fst ∧
        places.Pairwise fun a b =>
          key a.1.2 < key b.1.2 ∨ key a.1.2 = key b.1.2 ∧ a.2 < b.2 := by
  let le : Individual × φ → Individual × φ → Bool := fun a b => key a.2 ≤ key b.2
  have htrans : ∀ a b c, le a b = true → le b c = true → le a c = true := by
    intro a b c hab hbc
    exact decide_eq_true ((of_decide_eq_true hab).trans (of_decide_eq_true hbc))
  have htotal : ∀ a b, (le a b || le b a) = true := by
    intro a b
    rw [Bool.or_eq_true]
    exact (Nat.le_total (key a.2) (key b.2)).imp decide_eq_true decide_eq_true
  refine ⟨(individuals.zip fitness).zipIdx.mergeSort (List.zipIdxLE le), List.mergeSort_perm _ _,
    List.mergeSort_zipIdx.symm, ?_⟩
  have hsorted := List.pairwise_mergeSort (List.zipIdxLE_trans htrans) (List.zipIdxLE_total htotal)
    (individuals.zip fitness).zipIdx
  have hplaces : (((individuals.zip fitness).zipIdx.mergeSort (List.zipIdxLE le)).map
      Prod.snd).Nodup := by
    refine ((List.mergeSort_perm _ _).map Prod.snd).nodup_iff.mpr ?_
    rw [List.zipIdx_map_snd]
    exact List.nodup_range' _
  refine List.Pairwise.imp₂ (fun a b hle hne => ?_) hsorted (List.pairwise_map.mp hplaces)
  rw [List.zipIdxLE] at hle
  split at hle
  · next hab =>
      have hkeys : key a.1.2 ≤ key b.1.2 := of_decide_eq_true hab
      split at hle
      · next hba =>
          have hplace : a.2 ≤ b.2 := of_decide_eq_true hle
          exact .inr ⟨hkeys.antisymm (of_decide_eq_true hba), lt_of_le_of_ne hplace hne⟩
      · next hba => exact .inl (not_le.mp fun hle => hba (decide_eq_true hle))
  · cases hle

/-! ## The search -/

/-- The evaluator of a search whose data is split into these parts. -/
def Options.scorer (o : Options) (registry : Registry) (train test : Dataset) : Evaluator :=
  Evaluator.holdout registry train test o.metric.metric o.descent.optimizer
    ⟨o.trainWeight, o.complexityPenalty⟩

/-- What becomes of a batch that is scored by an evaluator and ranked. -/
structure RanksBatch (e : Evaluator) (individuals : List Individual)
    (outcomes : List (Float × Individual)) (places : List ((Individual × Float) × Nat))
    (ranked : List (Individual × Float)) : Prop where
  /-- Each individual has the fitness and the constants of its own evaluation, on the same tree. -/
  each : List.Forall₂ (fun i outcome => e.evaluate i = some outcome ∧ outcome.2.nodes = i.nodes)
    individuals outcomes
  /-- So it has in whatever order the individuals are scored. -/
  anyOrder : ∀ slots, e.Run (individuals.map .waiting) slots →
    e.Run slots (outcomes.map .scored) ∧
      ((∀ slot ∈ slots, slot.fitness ≠ none) → slots = outcomes.map .scored)
  /-- The ranking rearranges what was scored. -/
  perm : places.Perm (outcomes.map Prod.swap).zipIdx
  ranked_eq : ranked = places.map Prod.fst
  /-- Fitnesses ascend in the total order, and those with the same one stay in order. -/
  ascending : places.Pairwise fun a b => a.1.2 ≤ b.1.2 ∧
    (TotalOrder.place a.1.2 < TotalOrder.place b.1.2 ∨ a.1.2 = b.1.2 ∧ a.2 < b.2)

theorem Evaluator.of_evaluate_ofScore {registry : Registry} {metric : Metric}
    {optimizer : Optimizer} {fitOn : Dataset} {fitness : Fitted → Option Float} {i j : Individual}
    {x : Float} (h : (ofScore registry metric optimizer fitOn fitness).evaluate i = some (x, j)) :
    x.isFinite = true ∧ j.nodes = i.nodes := by
  cases hprogram : i.compile registry with
  | error error =>
      rw [evaluate_of_error fitness hprogram] at h
      obtain ⟨rfl, rfl⟩ := Prod.mk.inj (Option.some.inj h)
      exact ⟨by decide +kernel, rfl⟩
  | ok program =>
      rw [evaluate_of_ok fitness hprogram] at h
      obtain ⟨fitted, -, h⟩ := Option.bind_eq_some_iff.mp h
      obtain ⟨score, -, h⟩ := Option.map_eq_some_iff.mp h
      cases h
      exact ⟨Number.isFinite_sanitize score, rfl⟩

theorem exists_ranksBatch {e : Evaluator} {individuals : List Individual}
    {outcomes : List (Float × Individual)} (hall : e.evaluateAll individuals = some outcomes)
    (heach : ∀ i x j, e.evaluate i = some (x, j) → x.isFinite = true ∧ j.nodes = i.nodes) :
    ∃ places, RanksBatch e individuals outcomes places
      (rank (outcomes.map Prod.snd) (outcomes.map Prod.fst)) := by
  have hscored := Evaluator.forall₂_of_evaluateAll hall
  have hzip : (outcomes.map Prod.snd).zip (outcomes.map Prod.fst) = outcomes.map Prod.swap :=
    (List.zip_map' ..)
  have hfitness : ∀ outcome ∈ outcomes, outcome.1.isFinite = true := by
    clear hall hzip
    induction hscored with
    | nil => exact List.forall_mem_nil _
    | cons hfirst _ ih => exact List.forall_mem_cons.mpr ⟨(heach _ _ _ hfirst).1, ih⟩
  have hfinite : ∀ p ∈ (outcomes.map Prod.swap).zipIdx, p.1.2.isFinite = true := by
    intro p hp
    obtain ⟨outcome, houtcome, hswap⟩ := List.mem_map.mp (List.fst_mem_of_mem_zipIdx hp)
    rw [← hswap]
    exact hfitness outcome houtcome
  obtain ⟨places, hperm, hranked, hsorted⟩ := exists_places_rankBy
    (fun x : Float => totalOrderKey x.toBits) (outcomes.map Prod.snd) (outcomes.map Prod.fst)
  rw [hzip] at hperm
  refine ⟨places, ⟨?_, fun slots => Evaluator.run_confluent hall, hperm, hranked, ?_⟩⟩
  · exact hscored.imp fun i outcome h => ⟨h, (heach _ _ _ h).2⟩
  · refine hsorted.imp_of_mem fun {a b} ha hb hab => ?_
    have hle := TotalOrder.le_of_place_le (hfinite a (hperm.mem_iff.mp ha))
      (hfinite b (hperm.mem_iff.mp hb))
    rcases hab with hlt | ⟨heq, hplace⟩
    · exact ⟨hle (Nat.le_of_lt hlt), .inl hlt⟩
    · exact ⟨hle (Nat.le_of_eq heq), .inr ⟨TotalOrder.eq_of_place_eq heq, hplace⟩⟩

theorem Options.evaluator_eq (o : Options) (registry : Registry) (data : Dataset) :
    o.evaluator registry data =
      (data.splitByBlocks o.blocks).map fun parts => o.scorer registry parts.1 parts.2 := by
  rw [evaluator]
  cases data.splitByBlocks o.blocks with
  | error e => rfl
  | ok parts => rfl

/-- On data that is split, a search draws, scores and ranks. -/
theorem search_of_splitByBlocks {registry : Registry} {data : Dataset} {o : Options}
    {supply : Supply} {train test : Dataset}
    (hparts : data.splitByBlocks o.blocks = .ok (train, test)) :
    search registry data o supply =
      (generateCandidates registry o ⟨Stream.ofSeed o.seed.toUInt64, supply⟩).bind fun drawn =>
        match drawn.1 with
        | .error e => some (.error (.generation e))
        | .ok (individuals, failed) =>
          ((o.scorer registry train test).evaluateAll individuals).bind fun outcomes =>
            some (.ok ⟨rank (outcomes.map Prod.snd) (outcomes.map Prod.fst), failed⟩) := by
  rw [search, Options.evaluator_eq, hparts]
  rfl

/-- A search that returns a ranking returns the batch that it drew, scored and ranked: with the
candidates that failed, it is as many as were asked for. A data set that cannot be split is refused
as such, whatever the registry holds and whether or not anything could be generated; and nothing else
is. -/
theorem search_ranks (registry : Registry) (data : Dataset) (o : Options) (supply : Supply) :
    (∀ result, search registry data o supply = some (.ok result) →
      ∃ train test sources individuals outcomes places,
        data.splitByBlocks o.blocks = .ok (train, test) ∧
        generateCandidates registry o ⟨Stream.ofSeed o.seed.toUInt64, supply⟩ =
          some (.ok (individuals, result.failed), sources) ∧
        RanksBatch (o.scorer registry train test) individuals outcomes places result.ranked ∧
        result.ranked.length + result.failed = o.candidates) ∧
    ∀ rows blocks, search registry data o supply =
        some (.error (.dataset (.invalidSplit rows blocks))) ↔
      rows = data.rowCount ∧ blocks = o.blocks ∧ (blocks < 2 ∨ rows < blocks) := by
  by_cases hsplit : o.blocks < 2 ∨ data.rowCount < o.blocks
  · have hrefused : search registry data o supply =
        some (.error (.dataset (.invalidSplit data.rowCount o.blocks))) := by
      rw [search, Options.evaluator_eq, Dataset.splitByBlocks, if_pos hsplit]
      rfl
    rw [hrefused]
    refine ⟨fun result h => ?_, fun rows blocks => ?_⟩
    · cases h
    · constructor
      · intro h
        cases h
        exact ⟨rfl, rfl, hsplit⟩
      · rintro ⟨rfl, rfl, -⟩
        rfl
  · obtain ⟨⟨train, test⟩, hparts⟩ : ∃ parts, data.splitByBlocks o.blocks = .ok parts := by
      rw [Dataset.splitByBlocks, if_neg hsplit]
      exact ⟨_, rfl⟩
    have hnever : ∀ rows blocks,
        ¬(rows = data.rowCount ∧ blocks = o.blocks ∧ (blocks < 2 ∨ rows < blocks)) := by
      rintro rows blocks ⟨rfl, rfl, h⟩
      exact hsplit h
    rw [search_of_splitByBlocks hparts]
    refine ⟨fun result h => ?_, fun rows blocks => ⟨fun h => ?_, fun h => absurd h (hnever _ _)⟩⟩
    · obtain ⟨⟨outcome, sources⟩, hgenerated, h⟩ := Option.bind_eq_some_iff.mp h
      cases outcome with
      | error e => cases h
      | ok batch =>
          obtain ⟨individuals, failed⟩ := batch
          obtain ⟨outcomes, hscored, h⟩ := Option.bind_eq_some_iff.mp h
          cases h
          obtain ⟨places, hranks⟩ :=
            exists_ranksBatch hscored fun i x j => Evaluator.of_evaluate_ofScore
          refine ⟨train, test, sources, individuals, outcomes, places, hparts, hgenerated, hranks, ?_⟩
          rw [hranks.ranked_eq, List.length_map, hranks.perm.length_eq, List.length_zipIdx,
            List.length_map, ← hranks.each.length_eq]
          exact Options.length_of_generateCandidates hgenerated
    · obtain ⟨⟨outcome, sources⟩, -, h⟩ := Option.bind_eq_some_iff.mp h
      cases outcome with
      | error e => cases h
      | ok batch =>
          obtain ⟨outcomes, -, h⟩ := Option.bind_eq_some_iff.mp h
          cases h

def leafSamples : Dataset where
  features := ⟨1, [[1], [2]], by simp⟩
  target := [1, 3]
  weights := none
  variableNames := []
  target_length := rfl
  weights_length := by simp

/-- Two candidates without any inner node. -/
def leafOptions : Options where
  candidates := 2
  minHeight := 0
  maxHeight := 0

/-- Both candidates are the one leaf that there is. -/
theorem search_ranks_leaves : ∃ result train test individuals outcomes places,
    search leafRegistry leafSamples leafOptions {} = some (.ok result) ∧
      RanksBatch (leafOptions.scorer leafRegistry train test) individuals outcomes places
        result.ranked ∧
      result.ranked.length + result.failed = 2 := by
  have hcompile : loneLeaf.compile leafRegistry = .ok ⟨[], ["x1"], [], 0, .param 0⟩ := by
    rw [Individual.compile, show loneLeaf.text = "x1" by decide +kernel]
    cbv
  obtain ⟨sources, hdrawn⟩ : ∃ sources, generateCandidates leafRegistry leafOptions
      ⟨Stream.ofSeed leafOptions.seed.toUInt64, {}⟩ =
        some (.ok ([loneLeaf, loneLeaf], 0), sources) := ⟨_, rfl⟩
  obtain ⟨train, test, hparts, hscored⟩ : ∃ train test,
      leafSamples.splitByBlocks leafOptions.blocks = .ok (train, test) ∧
        ((leafOptions.scorer leafRegistry train test).evaluate loneLeaf).isSome = true := by
    refine ⟨_, _, rfl, ?_⟩
    rw [Options.scorer, Evaluator.holdout, Evaluator.evaluate_of_ok _ hcompile]
    decide +kernel
  obtain ⟨outcome, hevaluate⟩ := Option.isSome_iff_exists.mp hscored
  have hall : (leafOptions.scorer leafRegistry train test).evaluateAll [loneLeaf, loneLeaf] =
      some [outcome, outcome] := by
    simp only [Evaluator.evaluateAll, List.mapM_cons, List.mapM_nil, hevaluate]
    rfl
  have hsearch : search leafRegistry leafSamples leafOptions {} = some (.ok
      ⟨rank ([outcome, outcome].map Prod.snd) ([outcome, outcome].map Prod.fst), 0⟩) := by
    rw [search_of_splitByBlocks hparts, hdrawn, Option.bind_some]
    dsimp only
    rw [hall, Option.bind_some]
  obtain ⟨train, test, sources, individuals, outcomes, places, -, -, hranks, hlength⟩ :=
    (search_ranks leafRegistry leafSamples leafOptions {}).1 _ hsearch
  exact ⟨_, train, test, individuals, outcomes, places, hsearch, hranks, hlength⟩

end SymbolicRegression
