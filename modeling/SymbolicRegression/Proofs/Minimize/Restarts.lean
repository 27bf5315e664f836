import SymbolicRegression.Proofs.FloatOrder
import SymbolicRegression.Proofs.Minimize.LocalRuns

/-!
# Restarts keep what is best

A descent starts from the guess and from jittered copies of it. Which ones these are depends on the
seed alone and not on the objective, so the starts are a list, and the outcome is a fold of the
local runs over it. One local run taken into account leaves one of two pairs, the best one so far
or that of the run, and neither has a smaller value than the one that is left. The fold inherits
both: what it ends with is the guess or a run, and the least of all values.

The value that the guess starts with is infinite where the objective is undefined. A local run has a
finite value, so a best value that is not finite belongs to the guess, and the value reported for it
in the end is again the one that the objective gave.
-/

namespace SymbolicRegression

namespace Descent

/-! ## The starts of a descent -/

theorem length_jitter (guess : List Float) (s : Stream) :
    (jitter guess s).1.length = guess.length := by
  induction guess generalizing s with
  | nil => rw [jitter]
  | cons v guess ih => rw [jitter, List.length_cons, List.length_cons, ih]

/-- Jittered copies of the guess, `n` of them. -/
def copies (guess : List Float) : Nat → Stream → List (List Float)
  | 0, _ => []
  | n + 1, s => (jitter guess s).1 :: copies guess n (jitter guess s).2

/-- The points that the local runs of a descent start from. -/
def starts (d : Descent) (guess : List Float) : List (List Float) :=
  if guess.isEmpty then [] else guess :: copies guess d.restarts (Stream.ofSeed d.seed)

/-! ## The value at the guess -/

/-- What the first local run is compared with: the value at the guess, and infinity where the
objective is undefined there. -/
def given (baseline : Float) : Float :=
  if baseline.isNaN then Float.ofBits 0x7FF0000000000000 else baseline

theorem given_of_isNaN_eq_false {baseline : Float} (h : baseline.isNaN = false) :
    given baseline = baseline := by
  rw [given, h]
  rfl

theorem isNaN_given (baseline : Float) : (given baseline).isNaN = false := by
  rw [given]
  split
  case isTrue => rfl
  case isFalse h => exact Bool.eq_false_iff.2 h

/-- Infinity is not finite, so a finite value was not put in place of another one. -/
theorem given_of_isFinite {baseline : Float} (h : (given baseline).isFinite = true) :
    given baseline = baseline := by
  rw [given] at h ⊢
  split at h
  case isTrue => cases h
  case isFalse hdefined => exact if_neg hdefined

/-- What a descent reports in the end: the best pair, and where its value is not finite, the value
at the guess in its place. -/
def settle (baseline : Float) (best : Outcome Float) : Outcome Float :=
  if best.value.isFinite then best else { best with value := baseline }

theorem settle_of_isFinite {baseline : Float} {best : Outcome Float}
    (h : best.value.isFinite = true) : settle baseline best = best :=
  if_pos h

/-- The guess gets back the value that the objective has there. -/
theorem settle_of_given {baseline : Float} {best : Outcome Float}
    (h : best.value = given baseline) : settle baseline best = { best with value := baseline } := by
  rw [settle]
  split
  case isTrue hfinite =>
    rw [h] at hfinite
    rw [← given_of_isFinite hfinite, ← h]
  case isFalse => rfl

/-! ## The pair that is kept -/

/-- The best pair so far is the guess with the value that it was given, or that of a local run. -/
def IsKept (V : List Float → Float → Prop) (guess : List Float) (value : Float)
    (best : Outcome Float) : Prop :=
  best.params = guess ∧ best.value = value ∨ IsOutcome V guess.length best

variable {V : List Float → Float → Prop} {guess : List Float} {value : Float}
  {best : Outcome Float} {run : Option (Outcome Float)}

/-- A local run with a smaller value takes the place of the best pair, and no other one does. -/
theorem keep_some_cases (best r : Outcome Float) :
    r.value < best.value ∧
      (keep best (some r)).params = r.params ∧ (keep best (some r)).value = r.value ∨
    ¬r.value < best.value ∧
      (keep best (some r)).params = best.params ∧ (keep best (some r)).value = best.value := by
  rw [keep]
  split
  case isTrue hlt => exact .inl ⟨hlt, rfl, rfl⟩
  case isFalse hge => exact .inr ⟨hge, rfl, rfl⟩

theorem IsKept.keep (h : IsKept V guess value best)
    (hrun : ∀ r ∈ run, IsOutcome V guess.length r) : IsKept V guess value (keep best run) := by
  cases run with
  | none => exact h
  | some r =>
      obtain ⟨-, hparams, hvalue⟩ | ⟨-, hparams, hvalue⟩ := keep_some_cases best r
      · exact .inr ((hrun r rfl).congr hparams hvalue)
      · obtain ⟨hguess, hgiven⟩ | houtcome := h
        · exact .inl ⟨hparams.trans hguess, hvalue.trans hgiven⟩
        · exact .inr (houtcome.congr hparams hvalue)

theorem IsKept.settle {baseline : Float} (h : IsKept V guess (given baseline) best)
    (hbaseline : V guess baseline) :
    (settle baseline best).params.length = guess.length ∧
      V (settle baseline best).params (settle baseline best).value := by
  obtain ⟨hguess, hgiven⟩ | houtcome := h
  · rw [settle_of_given hgiven]
    dsimp only
    rw [hguess]
    exact ⟨rfl, hbaseline⟩
  · rw [settle_of_isFinite houtcome.value.isFinite]
    exact ⟨houtcome.length_params, houtcome.value.value⟩

section Effects

variable {m : Type → Type} [Monad m] {M : Modality m} {objective : List Float → m Float}

/-- The restarts are local runs from the copies of the guess. -/
theorem restartFrom_eq_mapM [LawfulMonad m] (d : Descent) (n : Nat) (s : Stream) :
    d.restartFrom objective guess n s best = do
      let runs ← (copies guess n s).mapM (d.localRun objective)
      return runs.foldl keep best := by
  induction n generalizing s best with
  | zero =>
      rw [restartFrom, copies, List.mapM_nil, pure_bind]
      rfl
  | succ n ih =>
      rw [restartFrom, copies, List.mapM_cons, bind_assoc]
      refine bind_congr fun run => ?_
      rw [ih, bind_assoc]
      refine bind_congr fun runs => ?_
      rw [pure_bind, List.foldl_cons]

/-- A descent evaluates the guess, makes its local runs in the order of their starts, and keeps the
best of all. -/
theorem minimize_eq_mapM [LawfulMonad m] (d : Descent) (guess : List Float) :
    d.minimize objective guess = do
      let baseline ← objective guess
      let runs ← (d.starts guess).mapM (d.localRun objective)
      return settle baseline (runs.foldl keep ⟨guess, given baseline, 1⟩) := by
  rw [minimize]
  refine bind_congr fun baseline => ?_
  cases guess with
  | nil =>
      rw [starts, List.isEmpty_nil, if_pos rfl, if_pos rfl, List.mapM_nil, pure_bind, List.foldl_nil,
        settle_of_given rfl]
  | cons v guess =>
      rw [starts, List.isEmpty_cons, if_neg Bool.false_ne_true, if_neg Bool.false_ne_true,
        List.mapM_cons, bind_assoc]
      refine bind_congr fun run => ?_
      rw [restartFrom_eq_mapM, bind_assoc, bind_assoc]
      refine bind_congr fun runs => ?_
      rw [pure_bind, pure_bind, List.foldl_cons]
      rfl

theorem all_restartFrom (d : Descent) (h : ∀ x, M.All (V x) (objective x)) (n : Nat) (s : Stream)
    (hbest : IsKept V guess value best) :
    M.All (IsKept V guess value) (d.restartFrom objective guess n s best) := by
  induction n generalizing s best with
  | zero => exact M.all_pure hbest
  | succ n ih =>
      rw [restartFrom]
      refine M.all_bind (d.all_localRun h _) fun run hrun => ?_
      rw [length_jitter] at hrun
      exact ih _ (hbest.keep hrun)

/-- Whatever a descent gives, the objective has the value at the parameters, as many as guessed. -/
theorem all_minimize (d : Descent) (h : ∀ x, M.All (V x) (objective x)) (guess : List Float) :
    M.All (fun o => o.params.length = guess.length ∧ V o.params o.value)
      (d.minimize objective guess) := by
  rw [minimize]
  refine M.all_bind (h guess) fun baseline hbaseline => ?_
  split
  · exact M.all_pure ⟨rfl, hbaseline⟩
  have hfirst : IsKept V guess (given baseline) ⟨guess, given baseline, 1⟩ := .inl ⟨rfl, rfl⟩
  refine M.all_bind (d.all_localRun h guess) fun run hrun => ?_
  refine M.all_bind (d.all_restartFrom h _ _ (hfirst.keep hrun)) fun best hbest => ?_
  exact M.all_pure (hbest.settle hbaseline)

end Effects

/-! ## The best of several runs -/

/-- What is kept of a pair and the local runs that come after it. -/
def bestOf (first : Outcome Float) (runs : List (Outcome Float)) : Outcome Float :=
  runs.foldl (fun best r => keep best (some r)) first

theorem bestOf_cons (first r : Outcome Float) (runs : List (Outcome Float)) :
    bestOf first (r :: runs) = bestOf (keep first (some r)) runs := rfl

/-- A local run without a value adds nothing. -/
theorem foldl_keep_eq_bestOf (first : Outcome Float) (runs : List (Option (Outcome Float))) :
    runs.foldl keep first = bestOf first (runs.filterMap id) := by
  induction runs generalizing first with
  | nil => rfl
  | cons run runs ih =>
      rw [List.foldl_cons, ih, List.filterMap_cons]
      cases run with
      | none => rfl
      | some r => rfl

/-- It is the first pair, or that of a run with a smaller value. -/
theorem bestOf_cases (first : Outcome Float) (runs : List (Outcome Float)) :
    (bestOf first runs).params = first.params ∧ (bestOf first runs).value = first.value ∨
    ∃ r ∈ runs, r.value < first.value ∧
      (bestOf first runs).params = r.params ∧ (bestOf first runs).value = r.value := by
  induction runs generalizing first with
  | nil => exact .inl ⟨rfl, rfl⟩
  | cons r runs ih =>
      rw [bestOf_cons]
      obtain ⟨hparams, hvalue⟩ | ⟨r', hmem, hlt', hparams, hvalue⟩ := ih (keep first (some r))
      · rw [hparams, hvalue]
        obtain ⟨hlt, hkept⟩ | ⟨-, hkept⟩ := keep_some_cases first r
        · exact .inr ⟨r, List.mem_cons_self, hlt, hkept⟩
        · exact .inl hkept
      · refine .inr ⟨r', List.mem_cons_of_mem _ hmem, ?_, hparams, hvalue⟩
        obtain ⟨hlt, -, hkept⟩ | ⟨-, -, hkept⟩ := keep_some_cases first r
        · rw [hkept] at hlt'
          exact FloatOrder.lt_trans hlt' hlt
        · rwa [hkept] at hlt'

theorem value_keep_le {best r : Outcome Float} (hbest : best.value.isNaN = false)
    (hr : r.value.isNaN = false) :
    (keep best (some r)).value ≤ best.value ∧ (keep best (some r)).value ≤ r.value := by
  obtain ⟨hlt, -, hvalue⟩ | ⟨hge, -, hvalue⟩ := keep_some_cases best r
  · rw [hvalue]
    exact ⟨FloatOrder.le_of_lt hlt, FloatOrder.le_refl hr⟩
  · rw [hvalue]
    exact ⟨FloatOrder.le_refl hbest, FloatOrder.le_of_not_lt hr hbest hge⟩

/-- No value that was compared is smaller. -/
theorem value_bestOf_le (first : Outcome Float) {runs : List (Outcome Float)}
    (hfirst : first.value.isNaN = false) (hruns : ∀ r ∈ runs, r.value.isNaN = false) :
    (bestOf first runs).value ≤ first.value ∧
      ∀ r ∈ runs, (bestOf first runs).value ≤ r.value := by
  induction runs generalizing first with
  | nil => exact ⟨FloatOrder.le_refl hfirst, fun r hr => nomatch hr⟩
  | cons r runs ih =>
      obtain ⟨hr, hruns⟩ := List.forall_mem_cons.1 hruns
      obtain ⟨hkeepFirst, hkeepRun⟩ := value_keep_le hfirst hr
      obtain ⟨hbest, hrest⟩ := ih _ (FloatOrder.le_iff.1 hkeepFirst).1.1 hruns
      rw [bestOf_cons, List.forall_mem_cons]
      exact ⟨FloatOrder.le_trans hbest hkeepFirst, FloatOrder.le_trans hbest hkeepRun, hrest⟩

/-! ## What a descent gives -/

/-- The local runs of a descent that found a value. -/
def runs (d : Descent) (f : List Float → Float) (guess : List Float) : List (Outcome Float) :=
  (d.starts guess).filterMap fun start => d.localRun (m := Id) f start

/-- A descent reports the best of the guess and its local runs. -/
theorem minimize_eq_settle (d : Descent) (f : List Float → Float) (guess : List Float) :
    d.minimize (m := Id) f guess =
      settle (f guess) (bestOf ⟨guess, given (f guess), 1⟩ (d.runs f guess)) := by
  rw [minimize_eq_mapM]
  show settle (f guess) (List.foldl keep ⟨guess, given (f guess), 1⟩
    ((d.starts guess).mapM (m := Id) (d.localRun (m := Id) f)).run) = _
  rw [List.idRun_mapM, foldl_keep_eq_bestOf, List.filterMap_map]
  rfl

theorem isFinite_of_mem_runs {d : Descent} {f : List Float → Float} {guess : List Float}
    {r : Outcome Float} (h : r ∈ d.runs f guess) : r.value.isFinite = true := by
  obtain ⟨start, -, hrun⟩ := List.mem_filterMap.1 h
  have hf : ∀ x, Modality.identity.All (fun v => v = f x) (f x) := fun _ => rfl
  exact (d.all_localRun (V := fun x v => v = f x) hf start r hrun).value.isFinite

/-- Is it a finite value below the one at the guess? An undefined value is above every number. -/
def Improves (baseline v : Float) : Prop :=
  v.isFinite = true ∧ (baseline.isNaN = true ∨ v < baseline)

instance (baseline v : Float) : Decidable (Improves baseline v) :=
  inferInstanceAs (Decidable (_ ∧ _))

theorem improves_of_lt_given {baseline v : Float} (hfinite : v.isFinite = true)
    (h : v < given baseline) : Improves baseline v := by
  refine ⟨hfinite, ?_⟩
  by_cases hdefined : baseline.isNaN = true
  · exact .inl hdefined
  · rw [given_of_isNaN_eq_false (Bool.eq_false_iff.2 hdefined)] at h
    exact .inr h

/-- No finite value reaches infinity, so what is below one is the value at the guess itself. -/
theorem le_of_given_le {baseline v : Float} (hfinite : v.isFinite = true)
    (h : given baseline ≤ v) : baseline ≤ v := by
  by_cases hdefined : baseline.isNaN = true
  · rw [given, if_pos hdefined] at h
    exact absurd h (FloatOrder.not_infinity_le hfinite)
  · rwa [given_of_isNaN_eq_false (Bool.eq_false_iff.2 hdefined)] at h

/-- A descent keeps the number of parameters and reports the value that the objective has at the
parameters it gives. No local run has a smaller value, and neither has the guess; and unless a local
run improves on the guess, the guess is what it gives. -/
theorem minimize_never_worse (d : Descent) (f : List Float → Float) (guess : List Float) :
    let o : Outcome Float := d.minimize (m := Id) f guess
    o.params.length = guess.length ∧
      o.value = f o.params ∧
      ((f guess).isNaN = false → o.value ≤ f guess) ∧
      (∀ r ∈ d.runs f guess, o.value ≤ r.value) ∧
      ((∀ r ∈ d.runs f guess, ¬Improves (f guess) r.value) → o.params = guess) := by
  have hf : ∀ x, Modality.identity.All (fun v => v = f x) (f x) := fun _ => rfl
  obtain ⟨hlength, hvalue⟩ := d.all_minimize (V := fun x v => v = f x) hf guess
  refine ⟨hlength, hvalue, ?_⟩
  have hfinite : ∀ r ∈ d.runs f guess, r.value.isFinite = true := fun r => isFinite_of_mem_runs
  obtain ⟨hguess, hruns⟩ := value_bestOf_le ⟨guess, given (f guess), 1⟩
    (isNaN_given (f guess)) fun r hr => FloatOrder.isNaN_eq_false_of_isFinite (hfinite r hr)
  rw [minimize_eq_settle]
  obtain ⟨hparams, hgiven⟩ | ⟨r, hr, hlt, -, hbest⟩ :=
    bestOf_cases ⟨guess, given (f guess), 1⟩ (d.runs f guess)
  · -- the guess is the best, and gets its own value back
    rw [hgiven] at hruns
    rw [settle_of_given hgiven]
    exact ⟨fun hdefined => FloatOrder.le_refl hdefined,
      fun r hr => le_of_given_le (hfinite r hr) (hruns r hr), fun _ => hparams⟩
  · -- a local run is the best, and its value is finite
    rw [settle_of_isFinite (hbest ▸ hfinite r hr)]
    refine ⟨fun hdefined => ?_, hruns, fun hnone => ?_⟩
    · have hgiven : given (f guess) ≤ f guess := by
        rw [given_of_isNaN_eq_false hdefined]
        exact FloatOrder.le_refl hdefined
      exact FloatOrder.le_trans hguess hgiven
    · exact absurd (improves_of_lt_given (hfinite r hr) hlt) (hnone r hr)

/-- The squared distance from the origin. -/
def squares (x : List Float) : Float :=
  Scalar.sum (x.map fun xi => xi * xi)

theorem minimize_never_worse_origin :
    (squares [0]).isNaN = false ∧
      (minimize { restarts := 0 } (m := Id) squares [0]).value ≤ squares [0] ∧
      (∀ r ∈ runs { restarts := 0 } squares [0], ¬Improves (squares [0]) r.value) ∧
      (minimize { restarts := 0 } (m := Id) squares [0]).params = [0] := by
  have hdefined : (squares [0]).isNaN = false := by decide +kernel
  have hruns : ∀ r ∈ runs { restarts := 0 } squares [0], ¬Improves (squares [0]) r.value := by
    decide +kernel
  obtain ⟨-, -, hle, -, hguess⟩ := minimize_never_worse { restarts := 0 } squares [0]
  exact ⟨hdefined, hle hdefined, hruns, hguess hruns⟩

end Descent

end SymbolicRegression
