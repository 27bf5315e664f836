import SymbolicRegression.Proofs.GeneratedPrograms
import SymbolicRegression.Proofs.GenerationEnds
import SymbolicRegression.Search

/-!
# The draws of a batch

A batch is drawn by two loops, one inside the other: a candidate is tried until a draw succeeds or
no retry is left, and this is done for every candidate that was asked for. All draws take turns on
one pair of sources, so a batch is one row of draws, each from what the one before it has left.
`Draws` is that row, and the result of the batch is read off it: the trees in the row are the
candidates, in the order in which they were drawn, and the last outcome of all is what is reported
where there are none.

What the inner loop does is said by `Tries`, which knows nothing of the sources: only a draw that
found nothing to choose from is followed by another one.
-/

namespace SymbolicRegression

/-- With a policy that stops in time, generating always comes to an end. -/
theorem exists_generate {policy : Policy} (hpolicy : policy.StopsInTime) (r : Registry)
    (low high : Nat) (root : Option ExprType) (s : Sources) :
    ∃ outcome s', generate r low high policy root s = some (outcome, s') := by
  by_cases hheights : high < low
  · rw [generate, if_pos hheights]
    exact ⟨_, _, rfl⟩
  · obtain ⟨stream, supply⟩ := s
    have hspare : 0 < spareLevels := Nat.two_pow_pos 64
    rw [generate_eq_fill (Nat.le_of_not_lt hheights)]
    refine Exists.imp (fun outcome => Exists.imp fun s' h => h.1)
      (Draw.exists_fill_root_eq hpolicy (Nat.lt_add_of_pos_right hspare) _)

namespace Options

variable {o : Options} {registry : Registry} {s s' s'' : Sources}

/-- What a draw may come to. -/
abbrev Drawn := Except GenerationError Tree

/-- A row of draws, each from what the one before it has left. -/
inductive Draws (o : Options) (registry : Registry) : Sources → List Drawn → Sources → Prop
  | done (s : Sources) : Draws o registry s [] s
  | draw {s s' s'' : Sources} {outcome : Drawn} {outcomes : List Drawn} :
      o.drawTree registry s = some (outcome, s') → Draws o registry s' outcomes s'' →
      Draws o registry s (outcome :: outcomes) s''

theorem Draws.append {outcomes outcomes' : List Drawn} (h : Draws o registry s outcomes s')
    (h' : Draws o registry s' outcomes' s'') : Draws o registry s (outcomes ++ outcomes') s'' := by
  induction h with
  | done => exact h'
  | draw hdraw _ ih => exact .draw hdraw (ih h')

/-- The draw found nothing to choose from. -/
def FoundNothing : Drawn → Prop
  | .error (.exhausted _ _) => True
  | _ => False

/-- The draws for one candidate. Another draw is made only after one that found nothing, and it is
made as long as there are retries. -/
structure Tries (retries : Nat) (outcomes : List Drawn) : Prop where
  ne_nil : outcomes ≠ []
  length_le : outcomes.length ≤ retries + 1
  retried : ∀ outcome ∈ outcomes.dropLast, FoundNothing outcome
  exhausted : ∀ outcome ∈ outcomes.getLast?, FoundNothing outcome → outcomes.length = retries + 1

/-- The trees that were drawn, in the order of the draws. -/
def trees (outcomes : List Drawn) : List Tree :=
  outcomes.filterMap Except.toOption

theorem trees_append (outcomes outcomes' : List Drawn) :
    trees (outcomes ++ outcomes') = trees outcomes ++ trees outcomes' :=
  List.filterMap_append ..

theorem policy_stopsInTime (o : Options) : o.policy.StopsInTime := by
  rw [policy]
  split
  · exact Policy.grow_stopsInTime _
  · exact Policy.full_stopsInTime

theorem exists_drawTree (o : Options) (registry : Registry) (s : Sources) :
    ∃ outcome s', o.drawTree registry s = some (outcome, s') :=
  exists_generate o.policy_stopsInTime registry o.minHeight o.maxHeight none s

/-! ## One candidate -/

theorem Tries.single {retries : Nat} {outcome : Drawn}
    (h : FoundNothing outcome → retries = 0) : Tries retries [outcome] where
  ne_nil := List.cons_ne_nil _ _
  length_le := Nat.succ_le_succ (Nat.zero_le retries)
  retried := List.forall_mem_nil _
  exhausted := by
    rintro _ ⟨rfl⟩ hnothing
    rw [h hnothing]
    rfl

theorem Tries.cons {retries : Nat} {outcome : Drawn} {outcomes : List Drawn}
    (houtcome : FoundNothing outcome) (h : Tries retries outcomes) :
    Tries (retries + 1) (outcome :: outcomes) where
  ne_nil := List.cons_ne_nil _ _
  length_le := Nat.succ_le_succ h.length_le
  retried := by
    rw [List.dropLast_cons_of_ne_nil h.ne_nil]
    exact List.forall_mem_cons.mpr ⟨houtcome, h.retried⟩
  exhausted final hfinal hnothing := by
    rw [List.getLast?_cons_of_ne_nil h.ne_nil] at hfinal
    rw [List.length_cons, h.exhausted final hfinal hnothing]

theorem Tries.flatten_ne_nil {retries : Nat} {outcomes : List Drawn} (h : Tries retries outcomes)
    (tries : List (List Drawn)) : (outcomes :: tries).flatten ≠ [] := by
  rw [List.flatten_cons]
  exact List.append_ne_nil_of_left_ne_nil h.ne_nil _

/-- Only the last of the draws for a candidate can give a tree. -/
theorem Tries.trees_eq {retries : Nat} {outcomes : List Drawn} {final : Drawn}
    (h : Tries retries outcomes) (hfinal : outcomes.getLast? = some final) :
    trees outcomes = final.toOption.toList := by
  have hfailed : trees outcomes.dropLast = [] := by
    refine List.filterMap_eq_nil_iff.mpr fun outcome houtcome => ?_
    cases outcome with
    | ok t => exact absurd (h.retried _ houtcome) id
    | error e => rfl
  have hsplit := List.dropLast_append_getLast? final hfinal
  rw [← hsplit, trees_append, hfailed]
  cases final with
  | ok t => rfl
  | error e => rfl

/-- The draws for a candidate come to an end, with the outcome of the last of them. -/
theorem exists_tries (o : Options) (registry : Registry) : ∀ (retries : Nat) (s : Sources),
    ∃ outcomes final s', o.drawRetrying registry retries s = some (final, s') ∧
      Draws o registry s outcomes s' ∧ Tries retries outcomes ∧ outcomes.getLast? = some final
  | 0, s => by
      obtain ⟨outcome, s', h⟩ := o.exists_drawTree registry s
      exact ⟨[outcome], outcome, s', h, .draw h (.done s'), .single fun _ => rfl, rfl⟩
  | retries + 1, s => by
      obtain ⟨outcome, s₁, h⟩ := o.exists_drawTree registry s
      rw [drawRetrying, Draw.bind_apply, Draw.attempt, h]
      cases outcome with
      | ok t => exact ⟨[.ok t], .ok t, s₁, rfl, .draw h (.done s₁), .single False.elim, rfl⟩
      | error e =>
          cases e with
          | invalidHeights low high =>
              exact ⟨[_], _, s₁, rfl, .draw h (.done s₁), .single False.elim, rfl⟩
          | exhausted category type =>
              -- the only draw that is followed by another one
              obtain ⟨outcomes, final, s', hrest, hdraws, htries, hfinal⟩ :=
                exists_tries o registry retries s₁
              refine ⟨_ :: outcomes, final, s', hrest, .draw h hdraws, htries.cons trivial, ?_⟩
              rw [List.getLast?_cons_of_ne_nil htries.ne_nil, hfinal]

/-! ## All candidates -/

/-- The batch with one more candidate, or one more failure. -/
def Batch.add (batch : Batch) : Drawn → Batch
  | .ok t => { batch with individuals := batch.individuals.push { nodes := t.preorder } }
  | .error e => { batch with failed := batch.failed + 1, lastError := some e }

theorem drawBatch_apply {final : Drawn} {n : Nat}
    (h : o.drawRetrying registry o.generationRetries s = some (final, s')) (batch : Batch) :
    o.drawBatch registry (n + 1) batch s = o.drawBatch registry n (batch.add final) s' := by
  rw [drawBatch, Draw.bind_apply, Draw.attempt, h]
  cases final with
  | ok t => rfl
  | error e => rfl

/-- What one batch has become by the draws for further candidates. -/
structure Gathers (tries : List (List Drawn)) (batch batch' : Batch) : Prop where
  individuals : batch'.individuals.toList =
    batch.individuals.toList ++ (trees tries.flatten).map fun t => { nodes := t.preorder }
  counted : batch'.individuals.size + batch'.failed =
    batch.individuals.size + batch.failed + tries.length
  kept : tries = [] → batch'.lastError = batch.lastError
  reported : ∀ e, tries.flatten.getLast? = some (.error e) → batch'.lastError = some e

theorem gathers_nil (batch : Batch) : Gathers [] batch batch where
  individuals := (List.append_nil _).symm
  counted := rfl
  kept _ := rfl
  reported _ h := by cases h

theorem Gathers.cons {retries : Nat} {outcomes : List Drawn} {final : Drawn}
    {tries : List (List Drawn)} {batch batch' : Batch} (htries : Tries retries outcomes)
    (hfinal : outcomes.getLast? = some final)
    (hall : ∀ outcomes ∈ tries, Tries retries outcomes)
    (h : Gathers tries (batch.add final) batch') : Gathers (outcomes :: tries) batch batch' where
  individuals := by
    rw [h.individuals, List.flatten_cons, trees_append, htries.trees_eq hfinal, List.map_append,
      ← List.append_assoc]
    cases final with
    | ok t => rw [Batch.add, Array.toList_push]; rfl
    | error e => rw [Batch.add]; exact congrArg (· ++ _) (List.append_nil _).symm
  counted := by
    have hcounted := h.counted
    cases final with
    | ok t =>
        rw [Batch.add, Array.size_push] at hcounted
        rw [List.length_cons]
        dsimp only at hcounted
        omega
    | error e =>
        rw [Batch.add] at hcounted
        rw [List.length_cons]
        dsimp only at hcounted
        omega
  kept h := by cases h
  reported e hlast := by
    rw [List.flatten_cons] at hlast
    -- with no further candidate the last draw is the one that was just added
    cases tries with
    | nil =>
        rw [List.flatten_nil, List.append_nil, hfinal] at hlast
        cases hlast
        exact h.kept rfl
    | cons next tries =>
        refine h.reported e ?_
        have hne := (hall next List.mem_cons_self).flatten_ne_nil tries
        rwa [List.getLast?_append_of_ne_nil _ hne] at hlast

/-- A batch comes to an end, and what it has gathered can be read off its draws. -/
theorem exists_drawBatch (o : Options) (registry : Registry) :
    ∀ (n : Nat) (batch : Batch) (s : Sources), ∃ tries batch' s',
      o.drawBatch registry n batch s = some (.ok batch', s') ∧
      Draws o registry s tries.flatten s' ∧ tries.length = n ∧
      (∀ outcomes ∈ tries, Tries o.generationRetries outcomes) ∧ Gathers tries batch batch'
  | 0, batch, s => ⟨[], batch, s, rfl, .done s, rfl, List.forall_mem_nil _, gathers_nil batch⟩
  | n + 1, batch, s => by
      obtain ⟨outcomes, final, s₁, hfirst, hdraws, htries, hfinal⟩ :=
        exists_tries o registry o.generationRetries s
      obtain ⟨tries, batch', s', hrest, hdraws', rfl, hall, hgathers⟩ :=
        exists_drawBatch o registry n (batch.add final) s₁
      exact ⟨outcomes :: tries, batch', s', (drawBatch_apply hfirst batch).trans hrest,
        hdraws.append hdraws', rfl, List.forall_mem_cons.mpr ⟨htries, hall⟩,
        hgathers.cons htries hfinal hall⟩

/-! ## The batch -/

/-- The error is the outcome only where there is one and no candidate. -/
def Batch.outcome (batch : Batch) : Except GenerationError (List Individual × Nat) :=
  match batch.lastError with
  | some e =>
    if batch.individuals.isEmpty then .error e
    else .ok (batch.individuals.toList, batch.failed)
  | none => .ok (batch.individuals.toList, batch.failed)

theorem generateCandidates_apply {batch : Batch} (hroom : o.candidates ≤ Batch.capacity)
    (h : o.drawBatch registry o.candidates {} s = some (.ok batch, s')) :
    generateCandidates registry o s = some (batch.outcome, s') := by
  rw [generateCandidates, if_neg (Nat.not_lt.mpr hroom), Draw.bind_apply, h, Option.bind_some,
    Batch.outcome]
  dsimp only
  cases batch.lastError with
  | none => rfl
  | some e =>
      by_cases hempty : batch.individuals.isEmpty = true
      · simp only [hempty, if_true]
        rfl
      · simp only [hempty, Bool.false_eq_true, if_false]
        rfl

theorem Batch.of_outcome_eq_ok {batch : Batch} {individuals : List Individual} {failed : Nat}
    (h : batch.outcome = .ok (individuals, failed)) :
    batch.individuals.toList = individuals ∧ batch.failed = failed := by
  rw [outcome] at h
  split at h
  · split at h
    · cases h
    · cases h
      exact ⟨rfl, rfl⟩
  · cases h
    exact ⟨rfl, rfl⟩

/-- Every candidate that was asked for is drawn or counted as failed. -/
theorem length_of_generateCandidates {individuals : List Individual} {failed : Nat}
    (h : generateCandidates registry o s = some (.ok (individuals, failed), s')) :
    individuals.length + failed = o.candidates := by
  have hroom : o.candidates ≤ Batch.capacity := by
    by_contra hover
    rw [generateCandidates, if_pos (Nat.lt_of_not_le hover)] at h
    cases h
  obtain ⟨tries, batch, rest, hbatch, -, hlength, -, hgathers⟩ :=
    exists_drawBatch o registry o.candidates {} s
  rw [generateCandidates_apply hroom hbatch] at h
  obtain ⟨houtcome, -⟩ := Prod.mk.inj (Option.some.inj h)
  obtain ⟨rfl, rfl⟩ := Batch.of_outcome_eq_ok houtcome
  rw [Array.length_toList, hgathers.counted, hlength]
  exact Nat.zero_add _

/-- Constants keep their letter from draw to draw, so that what is grown along the row lists one
tree. -/
theorem Draws.isValid_preorder {outcomes : List Drawn} (h : Draws o registry s outcomes s')
    (hstem : Draw.Lettered s.supply) :
    ∀ t ∈ trees outcomes, Preorder.isValid t.preorder = true := by
  induction h with
  | done => exact List.forall_mem_nil _
  | @draw s s₁ _ outcome outcomes hdraw _ ih =>
      obtain ⟨hstem', hgrown⟩ := Draw.yields_generate _ _ _ _ _ s outcome s₁ hstem hdraw
      cases outcome with
      | error e => exact ih hstem'
      | ok t =>
          refine List.forall_mem_cons.mpr ⟨?_, ih hstem'⟩
          exact Preorder.isValid_preorder (t.fits_of_grown (hgrown t rfl))

/-- Where no tree was drawn, the last draw of all failed. -/
theorem exists_error_of_trees_eq_nil {outcomes : List Drawn} (h : trees outcomes = [])
    (hne : outcomes ≠ []) : ∃ e, outcomes.getLast? = some (.error e) := by
  have hlast := List.getLast?_eq_some_getLast hne
  cases hfinal : outcomes.getLast hne with
  | error e => exact ⟨e, hlast.trans (congrArg some hfinal)⟩
  | ok t =>
      have hnone := List.filterMap_eq_nil_iff.mp h _ (List.getLast_mem hne)
      rw [hfinal] at hnone
      cases hnone

/-- How a batch comes about: by one row of draws, which falls into the draws for the first
candidate, those for the second and so on. -/
structure DrawsBatch (o : Options) (registry : Registry) (s : Sources) (tries : List (List Drawn))
    (outcome : Except GenerationError (List Individual × Nat)) (s' : Sources) : Prop where
  draws : Draws o registry s tries.flatten s'
  /-- There are draws for every candidate that was asked for. -/
  length_eq : tries.length = o.candidates
  each : ∀ outcomes ∈ tries, Tries o.generationRetries outcomes
  isValid : ∀ t ∈ trees tries.flatten, Preorder.isValid t.preorder = true
  /-- The trees are the candidates, in the order of the draws, and all other requests failed. -/
  ok_of_trees : o.candidates = 0 ∨ trees tries.flatten ≠ [] → ∃ failed,
    outcome = .ok ((trees tries.flatten).map fun t => { nodes := t.preorder }, failed) ∧
      (trees tries.flatten).length + failed = o.candidates
  /-- Without any tree, the last draw of all says why. -/
  error_of_trees_eq_nil : 0 < o.candidates → trees tries.flatten = [] → ∃ e,
    outcome = .error e ∧ tries.flatten.getLast? = some (.error e)

theorem Gathers.outcome_eq_ok {tries : List (List Drawn)} {batch : Batch}
    (h : Gathers tries {} batch) (hsome : tries = [] ∨ trees tries.flatten ≠ []) :
    batch.outcome =
      .ok ((trees tries.flatten).map fun t => { nodes := t.preorder }, batch.failed) := by
  have hindividuals : batch.individuals.toList = (trees tries.flatten).map _ := h.individuals
  rw [← hindividuals, Batch.outcome]
  split
  · next e he =>
      rcases hsome with rfl | hne
      · rw [h.kept rfl] at he
        cases he
      · rw [if_neg]
        rw [← Array.isEmpty_toList, hindividuals, List.isEmpty_iff, List.map_eq_nil_iff]
        exact hne
  · rfl

theorem Gathers.outcome_eq_error {tries : List (List Drawn)} {batch : Batch} {e : GenerationError}
    (h : Gathers tries {} batch) (hnone : trees tries.flatten = [])
    (hlast : tries.flatten.getLast? = some (.error e)) : batch.outcome = .error e := by
  have hindividuals : batch.individuals.toList = (trees tries.flatten).map _ := h.individuals
  rw [hnone] at hindividuals
  rw [Batch.outcome, h.reported e hlast]
  dsimp only
  rw [if_pos]
  rw [← Array.isEmpty_toList, hindividuals]
  rfl

theorem Gathers.drawsBatch {tries : List (List Drawn)} {batch : Batch}
    (h : Gathers tries {} batch) (hdraws : Draws o registry s tries.flatten s')
    (hlength : tries.length = o.candidates)
    (hall : ∀ outcomes ∈ tries, Tries o.generationRetries outcomes)
    (hstem : Draw.Lettered s.supply) : o.DrawsBatch registry s tries batch.outcome s' where
  draws := hdraws
  length_eq := hlength
  each := hall
  isValid := hdraws.isValid_preorder hstem
  ok_of_trees hsome := by
    rw [← hlength, List.length_eq_zero_iff] at hsome
    refine ⟨batch.failed, h.outcome_eq_ok hsome, ?_⟩
    have hsize := congrArg List.length h.individuals
    have hcounted := h.counted
    rw [Array.length_toList, List.length_append, List.length_map] at hsize
    rw [hsize, hlength] at hcounted
    simpa using hcounted
  error_of_trees_eq_nil hpos hnone := by
    obtain ⟨first, tries, rfl⟩ := List.exists_cons_of_length_pos (hlength ▸ hpos)
    have hne := (hall first List.mem_cons_self).flatten_ne_nil tries
    obtain ⟨e, hlast⟩ := exists_error_of_trees_eq_nil hnone hne
    exact ⟨e, h.outcome_eq_error hnone hlast, hlast⟩

end Options

/-- A batch that there is room for comes about by its draws, whatever the registry holds and
whatever the heights, the policy and the number of retries are, from every state of the stream and
however many constants have been named before. Room is made before the first draw, so a larger
request than that has no outcome. -/
theorem generateCandidates_drawsBatch (registry : Registry) (o : Options) (stream : Stream)
    (named : Nat) (others : NameCounter) :
    (o.candidates ≤ Options.Batch.capacity → ∃ tries outcome rest,
      generateCandidates registry o ⟨stream, ⟨⟨"c", named⟩, others⟩⟩ = some (outcome, rest) ∧
        o.DrawsBatch registry ⟨stream, ⟨⟨"c", named⟩, others⟩⟩ tries outcome rest) ∧
      (Options.Batch.capacity < o.candidates →
        generateCandidates registry o ⟨stream, ⟨⟨"c", named⟩, others⟩⟩ = none) := by
  constructor
  · intro hroom
    obtain ⟨tries, batch, rest, h, hdraws, hlength, hall, hgathers⟩ :=
      o.exists_drawBatch registry o.candidates {} ⟨stream, ⟨⟨"c", named⟩, others⟩⟩
    exact ⟨tries, batch.outcome, rest, Options.generateCandidates_apply hroom h,
      hgathers.drawsBatch hdraws hlength hall rfl⟩
  · intro hroom
    rw [generateCandidates, if_pos hroom]
    rfl

/-- One variable and nothing else. -/
def leafRegistry : Registry :=
  { Registry.empty "leaf" .var with terminals := [.named (Terminal.var "x1")] }

def loneLeaf : Individual where
  nodes := [.terminal (Terminal.var "x1")]

/-- One variable, and an operator whose argument nothing can fill. -/
def gapRegistry : Registry :=
  { leafRegistry with
    operators := [⟨"square", [.weightedSum], .var, .unknown, fun _ => 0⟩] }

/-- Three candidates, each tried twice at most. -/
def gapOptions : Options where
  candidates := 3
  minHeight := 0
  maxHeight := 1
  generationRetries := 1

/-- Two of the candidates are the variable, and for one a second draw found nothing either. -/
theorem generateCandidates_drawsBatch_gap : ∃ tries rest,
    generateCandidates gapRegistry gapOptions ⟨⟨1⟩, {}⟩ =
        some (.ok ([loneLeaf, loneLeaf], 1), rest) ∧
      gapOptions.DrawsBatch gapRegistry ⟨⟨1⟩, {}⟩ tries (.ok ([loneLeaf, loneLeaf], 1)) rest := by
  obtain ⟨rest, hrun⟩ : ∃ rest, generateCandidates gapRegistry gapOptions ⟨⟨1⟩, {}⟩ =
      some (.ok ([loneLeaf, loneLeaf], 1), rest) := ⟨_, rfl⟩
  obtain ⟨tries, outcome, rest', h, hdraws⟩ :=
    (generateCandidates_drawsBatch gapRegistry gapOptions ⟨1⟩ 0 ⟨"x", 0⟩).1 (by decide)
  rw [hrun] at h
  cases h
  exact ⟨tries, rest, hrun, hdraws⟩

/-- More candidates than there is room for. -/
def overfullOptions : Options where
  candidates := 18446744073709551615
  minHeight := 2
  maxHeight := 1

/-- There is not a single draw then, and no report of the range of heights that holds none. -/
theorem generateCandidates_overfull : ¬∃ tries outcome rest,
    generateCandidates gapRegistry overfullOptions ⟨⟨1⟩, {}⟩ = some (outcome, rest) ∧
      overfullOptions.DrawsBatch gapRegistry ⟨⟨1⟩, {}⟩ tries outcome rest := by
  rintro ⟨tries, outcome, rest, h, -⟩
  have hroom : Options.Batch.capacity < overfullOptions.candidates := by decide
  rw [generateCandidates, if_pos hroom] at h
  cases h

end SymbolicRegression
