import SymbolicRegression.Proofs.Minimize.CallCounts
import SymbolicRegression.Proofs.Minimize.Restarts

/-!
# What a descent reports as its evaluations

A descent reports one evaluation for the guess, and adds the count of every local run that gives
something. Such a count is how often the run has invoked the objective. A local run that gives
nothing has invoked the objective as well: it stops at a value that is not finite, and to find that
out costs evaluations. But with the outcome its count is lost, and nothing is added for it.

So the report and the invocations are compared run by run. The local runs of a descent are observed
from outside, each with the number of invocations that it makes, and the two sums differ by the
invocations of the runs without an outcome.
-/

namespace SymbolicRegression

open Minimize

variable {m : Type → Type} [Monad m] {α γ : Type}

namespace Minimize

/-- A computation, with how often it invokes the objective. -/
def metered (x : Counting m α) : Counting m (α × Nat) := do
  let before ← get
  let a ← x
  let after ← get
  return (a, after - before)

theorem metered_bind [LawfulMonad m] {β : Type} (x : Counting m α) (f : α → Counting m β) :
    (do let run ← metered x; f run.1) = x >>= f := by
  apply StateT.ext
  intro calls
  simp only [metered, StateT.run_bind, StateT.run_get, bind_assoc, pure_bind]

/-- Observing the invocations leaves the results as they are. -/
theorem mapM_metered_bind [LawfulMonad m] {β : Type} (x : γ → Counting m α) (l : List γ)
    (f : List α → Counting m β) :
    (do let runs ← l.mapM fun c => metered (x c); f (runs.map Prod.fst)) = l.mapM x >>= f := by
  induction l generalizing f with
  | nil => rw [List.mapM_nil, List.mapM_nil, pure_bind, pure_bind, List.map_nil]
  | cons c l ih =>
      rw [List.mapM_cons, List.mapM_cons, bind_assoc, bind_assoc, ← metered_bind (x c)]
      refine bind_congr fun run => ?_
      rw [bind_assoc, bind_assoc, ← ih]
      refine bind_congr fun runs => ?_
      rw [pure_bind, pure_bind, List.map_cons]

/-- A count that only grows is told from outside. -/
theorem all_metered {M : Modality m} {P : α → Nat → Prop} {x : Counting m α}
    (h : ∀ before, M.All (fun r => ∃ n, r.2 = before + n ∧ P r.1 n) (x before)) (before : Nat) :
    M.All (fun r => r.2 = before + r.1.2 ∧ P r.1.1 r.1.2) (metered x before) := by
  refine M.all_bind (P := fun r => r = (before, before)) (M.all_pure rfl) ?_
  rintro _ rfl
  refine M.all_bind (h before) fun (a, after) ⟨n, hafter, ha⟩ => ?_
  refine M.all_bind (P := fun r => r = (after, after)) (M.all_pure rfl) ?_
  rintro _ rfl
  have hn : after - before = n := Nat.sub_eq_of_eq_add' hafter
  refine M.all_pure ?_
  dsimp only
  rw [hn]
  exact ⟨hafter, ha⟩

/-- The invocations of computations that are made one after another add up. -/
theorem all_mapM_metered [LawfulMonad m] {M : Modality m} {P : α → Nat → Prop}
    {x : γ → Counting m α}
    (h : ∀ c before, M.All (fun r => ∃ n, r.2 = before + n ∧ P r.1 n) (x c before)) (l : List γ)
    (before : Nat) :
    M.All (fun r => r.2 = before + (r.1.map Prod.snd).sum ∧ ∀ run ∈ r.1, P run.1 run.2)
      (l.mapM (fun c => metered (x c)) before) := by
  induction l generalizing before with
  | nil =>
      rw [List.mapM_nil]
      exact M.all_pure ⟨rfl, fun run hrun => nomatch hrun⟩
  | cons c l ih =>
      rw [List.mapM_cons]
      refine M.all_bind (all_metered (h c) before) fun (run, between) ⟨hbetween, hrun⟩ => ?_
      refine M.all_bind (ih between) fun (runs, after) ⟨hafter, hruns⟩ => ?_
      refine M.all_pure ⟨?_, List.forall_mem_cons.2 ⟨hrun, hruns⟩⟩
      dsimp only at hbetween hafter ⊢
      rw [hafter, hbetween, List.map_cons, List.sum_cons, Nat.add_assoc]

end Minimize

namespace Descent

/-- The local runs of a descent, in their order: what each of them gives, and how often it invokes
the objective. -/
def localRuns (d : Descent) (objective : List Float → m Float) (guess : List Float) :
    Counting m (List (Option (Outcome Float) × Nat)) := do
  let _ ← counted objective guess
  (d.starts guess).mapM fun start => metered (d.localRun (counted objective) start)

theorem calls_settle (baseline : Float) (best : Outcome Float) :
    (settle baseline best).calls = best.calls := by
  rw [settle]
  split <;> rfl

/-- The reported evaluations are those of the first pair and of the runs that gave something. -/
theorem calls_foldl_keep (first : Outcome Float) (runs : List (Option (Outcome Float))) :
    (runs.foldl keep first).calls = first.calls + (runs.map fun run => run.elim 0 (·.calls)).sum := by
  induction runs generalizing first with
  | nil => rfl
  | cons run runs ih =>
      have hkeep : (keep first run).calls = first.calls + run.elim 0 (·.calls) := by
        cases run with
        | none => rfl
        | some r =>
            rw [keep]
            split <;> rfl
      rw [List.foldl_cons, ih, List.map_cons, List.sum_cons, hkeep, Nat.add_assoc]

/-- Where runs with an outcome report their invocations, those of the others are missing in the
sum. -/
theorem sum_calls_add_abandoned {runs : List (Option (Outcome Float) × Nat)}
    (h : ∀ run ∈ runs, ∀ o ∈ run.1, o.calls = run.2) :
    ((runs.map Prod.fst).map fun run => run.elim 0 (·.calls)).sum +
        ((runs.filter (·.1.isNone)).map Prod.snd).sum = (runs.map Prod.snd).sum := by
  induction runs with
  | nil => rfl
  | cons run runs ih =>
      obtain ⟨hrun, hruns⟩ := List.forall_mem_cons.1 h
      have := ih hruns
      obtain ⟨run, n⟩ := run
      cases run with
      | none =>
          rw [List.filter_cons_of_pos rfl]
          simp only [List.map_cons, List.sum_cons, Option.elim_none]
          omega
      | some o =>
          have hcalls : o.calls = n := hrun o rfl
          rw [List.filter_cons_of_neg Bool.false_ne_true]
          simp only [List.map_cons, List.sum_cons, Option.elim_some]
          omega

theorem minimize_eq_metered [LawfulMonad m] (d : Descent) (objective : List Float → m Float)
    (guess : List Float) :
    d.minimize (counted objective) guess = do
      let baseline ← counted objective guess
      let runs ← (d.starts guess).mapM fun start => metered (d.localRun (counted objective) start)
      return settle baseline ((runs.map Prod.fst).foldl keep ⟨guess, given baseline, 1⟩) := by
  rw [minimize_eq_mapM]
  exact bind_congr fun baseline => (mapM_metered_bind _ _ _).symm

section Stateful

variable {σ : Type} (d : Descent) (objective : List Float → StateM σ Float) (guess : List Float)
  (s : σ)

theorem calls_minimize_counted :
    (result (d.minimize (counted objective) guess) s).calls =
      1 + (((result (d.localRuns objective guess) s).map Prod.fst).map
        fun run => run.elim 0 (·.calls)).sum := by
  rw [minimize_eq_metered]
  show (settle _ (List.foldl keep _ ((result (d.localRuns objective guess) s).map _))).calls = _
  rw [calls_settle, calls_foldl_keep]

theorem invocations_minimize_counted :
    invocations (d.minimize (counted objective) guess) 0 s =
        1 + ((result (d.localRuns objective guess) s).map Prod.snd).sum ∧
      ∀ run ∈ result (d.localRuns objective guess) s, ∀ o ∈ run.1, o.calls = run.2 := by
  have hrun : ∀ start before, (Modality.stateful σ).All
      (fun r => ∃ n, r.2 = before + n ∧ ∀ o ∈ r.1, o.calls = n)
      (d.localRun (counted objective) start before) := fun start before s => by
    obtain ⟨n, hn, -, ho⟩ := d.all_localRun_counted (M := Modality.stateful σ)
      (fun _ _ => trivial) start before s
    exact ⟨n, hn, ho⟩
  rw [minimize_eq_metered]
  exact all_mapM_metered (P := fun run n => ∀ o ∈ run, o.calls = n)
    (x := fun start => d.localRun (counted objective) start) hrun (d.starts guess) 1
    (objective guess s).2

/-- A descent reports as its evaluations how often it has invoked the objective, less the
invocations of the local runs that gave nothing. So the report is right if and only if no such run
has invoked the objective. The objective may have a state, and its values need not be finite. -/
theorem calls_eq_invocations_iff :
    (result (d.minimize (counted objective) guess) s).calls +
        (((result (d.localRuns objective guess) s).filter (·.1.isNone)).map Prod.snd).sum =
      invocations (d.minimize (counted objective) guess) 0 s ∧
    ((result (d.minimize (counted objective) guess) s).calls =
        invocations (d.minimize (counted objective) guess) 0 s ↔
      ∀ run ∈ result (d.localRuns objective guess) s, run.1 = none → run.2 = 0) := by
  obtain ⟨hinvoked, hruns⟩ := d.invocations_minimize_counted objective guess s
  have hcalls := d.calls_minimize_counted objective guess s
  have hsum := sum_calls_add_abandoned hruns
  have hzero : (result (d.minimize (counted objective) guess) s).calls =
        invocations (d.minimize (counted objective) guess) 0 s ↔
      (((result (d.localRuns objective guess) s).filter (·.1.isNone)).map Prod.snd).sum = 0 := by
    omega
  refine ⟨by omega, ?_⟩
  rw [hzero, List.sum_eq_zero_iff_forall_eq_nat]
  simp only [List.forall_mem_map, List.mem_filter, Option.isNone_iff_eq_none, and_imp]

end Stateful

/-- An objective that is undefined everywhere. -/
def undefinedEverywhere (_ : List Float) : StateM Unit Float :=
  return 0 / 0

/-- A descent on it invokes it four times and reports one evaluation: the guess and the restarts give
nothing, and their first values are lost. -/
theorem calls_lt_invocations_undefined :
    (result (minimize {} (counted undefinedEverywhere) [1]) ()).calls = 1 ∧
      invocations (minimize {} (counted undefinedEverywhere) [1]) 0 () = 4 := by
  decide +kernel

end Descent

end SymbolicRegression
