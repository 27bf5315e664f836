import SymbolicRegression.Proofs.Minimize.Restarts

/-!
# More restarts never hurt

All copies of a guess come from one stream of random numbers, and how many numbers a copy takes does
not depend on the objective. So a descent with more restarts has the starts of one with fewer, and
then others. Its local runs are those of the shorter descent and then others, also when they are
observed one evaluation at a time, and the best pair of the shorter descent is what the later runs
are compared with: it stays, or a smaller value takes its place.

A value that is not finite is that of the guess. What the descent reports for it is again not finite,
so nothing is hidden when the value at the guess is put back.
-/

namespace SymbolicRegression

namespace Descent

/-! ## The starts -/

theorem take_copies (guess : List Float) (k n : Nat) (s : Stream) :
    (copies guess (k + n) s).take k = copies guess k s := by
  induction k generalizing s with
  | zero => rw [List.take_zero, copies]
  | succ k ih => rw [Nat.add_right_comm, copies, copies, List.take_succ_cons, ih]

/-- The guess and the first restarts. -/
theorem take_starts (d : Descent) (guess : List Float) (k n : Nat) :
    (starts { d with restarts := k + n } guess).take (k + 1) =
      starts { d with restarts := k } guess := by
  unfold starts
  split
  · rw [List.take_nil]
  · rw [List.take_succ_cons, take_copies]

/-- The starts of a descent with `n` more restarts that come after the others. -/
def laterStarts (d : Descent) (guess : List Float) (k n : Nat) : List (List Float) :=
  (starts { d with restarts := k + n } guess).drop (k + 1)

theorem starts_append (d : Descent) (guess : List Float) (k n : Nat) :
    starts { d with restarts := k + n } guess =
      starts { d with restarts := k } guess ++ d.laterStarts guess k n := by
  rw [laterStarts, ← take_starts d guess k n, List.take_append_drop]

/-! ## The points that are visited -/

/-- The objective with a record of the points that it is evaluated at. -/
def recorded (f : List Float → Float) (x : List Float) : StateM (List (List Float)) Float := do
  modify (· ++ [x])
  return f x

/-- The points that a descent evaluates the objective at, in their order. -/
def visited (d : Descent) (f : List Float → Float) (guess : List Float) : List (List Float) :=
  ((d.minimize (recorded f) guess).run []).2

/-- A record is only added to. -/
def growing : Modality (StateM (List (List Float))) where
  All P x := ∀ record, P (x record).1 ∧ record <+: (x record).2
  all_pure h _ := ⟨h, List.prefix_rfl⟩
  all_bind hx hf record :=
    ⟨(hf _ (hx record).1 _).1, (hx record).2.trans (hf _ (hx record).1 _).2⟩

theorem all_mapM {m : Type → Type} [Monad m] [LawfulMonad m] {M : Modality m} {α β : Type}
    {x : α → m β} (h : ∀ a, M.All (fun _ => True) (x a)) (l : List α) :
    M.All (fun _ => True) (l.mapM x) := by
  induction l with
  | nil =>
      rw [List.mapM_nil]
      exact M.all_pure trivial
  | cons a l ih =>
      rw [List.mapM_cons]
      exact M.all_bind (h a) fun b _ => M.all_bind ih fun bs _ => M.all_pure trivial

theorem growing_localRun (d : Descent) (f : List Float → Float) (start : List Float) :
    growing.All (fun _ => True) (d.localRun (recorded f) start) := by
  have hrecorded : ∀ x, growing.All (fun _ => True) (recorded f x) :=
    fun x record => ⟨trivial, List.prefix_append record [x]⟩
  intro record
  exact ⟨trivial, (d.all_localRun (V := fun _ _ => True) hrecorded start record).2⟩

/-- The number of restarts is nothing to a local run. -/
theorem localRun_restarts {m : Type → Type} [Monad m] (d : Descent) (k : Nat) :
    localRun (m := m) { d with restarts := k } = d.localRun := rfl

theorem visited_prefix (d : Descent) (f : List Float → Float) (guess : List Float) (k n : Nat) :
    visited { d with restarts := k } f guess <+: visited { d with restarts := k + n } f guess := by
  unfold visited
  rw [minimize_eq_mapM, minimize_eq_mapM, starts_append, List.mapM_append, localRun_restarts,
    localRun_restarts]
  exact (all_mapM (d.growing_localRun f) (d.laterStarts guess k n) _).2

/-! ## The best pair -/

theorem bestOf_append (first : Outcome Float) (xs ys : List (Outcome Float)) :
    bestOf first (xs ++ ys) = bestOf (bestOf first xs) ys :=
  List.foldl_append

/-- The local runs that more restarts add. -/
def laterRuns (d : Descent) (f : List Float → Float) (guess : List Float) (k n : Nat) :
    List (Outcome Float) :=
  (d.laterStarts guess k n).filterMap fun start => d.localRun (m := Id) f start

theorem runs_append (d : Descent) (f : List Float → Float) (guess : List Float) (k n : Nat) :
    runs { d with restarts := k + n } f guess =
      runs { d with restarts := k } f guess ++ d.laterRuns f guess k n := by
  unfold runs
  rw [starts_append, List.filterMap_append]
  rfl

theorem settle_congr {baseline : Float} {best best' : Outcome Float}
    (hparams : best'.params = best.params) (hvalue : best'.value = best.value) :
    (settle baseline best').params = (settle baseline best).params ∧
      (settle baseline best').value = (settle baseline best).value := by
  unfold settle
  rw [hvalue]
  split
  · exact ⟨hparams, hvalue⟩
  · exact ⟨hparams, rfl⟩

/-- Infinity in the place of an undefined value leaves open whether the value is finite. -/
theorem isFinite_given (baseline : Float) : (given baseline).isFinite = baseline.isFinite := by
  cases hdefined : baseline.isNaN with
  | false => rw [given_of_isNaN_eq_false hdefined]
  | true =>
      have hbaseline : baseline.isFinite = false := by
        rw [Bool.eq_false_iff]
        intro hfinite
        rw [FloatOrder.isNaN_eq_false_of_isFinite hfinite] at hdefined
        cases hdefined
      rw [given, hdefined, hbaseline, if_pos rfl]
      rfl

/-- What is reported for the best of several runs is finite where the best value is, and not finite
elsewhere. -/
theorem isFinite_settle_bestOf {baseline : Float} {guess : List Float}
    {runs : List (Outcome Float)} (hruns : ∀ r ∈ runs, r.value.isFinite = true) :
    (settle baseline (bestOf ⟨guess, given baseline, 1⟩ runs)).value.isFinite =
      (bestOf ⟨guess, given baseline, 1⟩ runs).value.isFinite := by
  obtain ⟨-, hgiven⟩ | ⟨r, hr, -, -, hbest⟩ := bestOf_cases ⟨guess, given baseline, 1⟩ runs
  · rw [settle_of_given hgiven, hgiven]
    exact (isFinite_given baseline).symm
  · rw [settle_of_isFinite (hbest ▸ hruns r hr)]

/-- With more restarts, a descent reports what it does with fewer, or a smaller value, or a finite
value where it does not report one with fewer. The first restarts start from the same points, and
with them the objective is evaluated at the same points in the same order. -/
theorem more_restarts_never_hurt (d : Descent) (f : List Float → Float) (guess : List Float)
    (k n : Nat) :
    let fewer : Outcome Float := minimize { d with restarts := k } (m := Id) f guess
    let more : Outcome Float := minimize { d with restarts := k + n } (m := Id) f guess
    (more.params = fewer.params ∧ more.value = fewer.value ∨
        more.value < fewer.value ∨
        more.value.isFinite = true ∧ fewer.value.isFinite = false) ∧
      (starts { d with restarts := k + n } guess).take (k + 1) =
        starts { d with restarts := k } guess ∧
      visited { d with restarts := k } f guess <+:
        visited { d with restarts := k + n } f guess := by
  refine ⟨?_, d.take_starts guess k n, d.visited_prefix f guess k n⟩
  have hfinite : ∀ {e : Descent}, ∀ r ∈ e.runs f guess, r.value.isFinite = true :=
    fun r => isFinite_of_mem_runs
  have hlater : ∀ r ∈ d.laterRuns f guess k n, r.value.isFinite = true := fun r hr =>
    hfinite r (runs_append d f guess k n ▸ List.mem_append_right _ hr)
  rw [minimize_eq_settle, minimize_eq_settle, runs_append, bestOf_append]
  obtain ⟨hparams, hvalue⟩ | ⟨r, hr, hlt, -, hbest⟩ :=
    bestOf_cases (bestOf ⟨guess, given (f guess), 1⟩ (runs { d with restarts := k } f guess))
      (d.laterRuns f guess k n)
  · exact .inl (settle_congr hparams hvalue)
  · -- a later run is the best, and its value is finite
    have hmore := hlater r hr
    rw [← hbest] at hmore hlt
    rw [settle_of_isFinite hmore]
    refine .inr ?_
    cases hfewer : (bestOf ⟨guess, given (f guess), 1⟩
        (runs { d with restarts := k } f guess)).value.isFinite with
    | true =>
        rw [settle_of_isFinite hfewer]
        exact .inl hlt
    | false =>
        rw [isFinite_settle_bestOf hfinite]
        exact .inr ⟨hmore, hfewer⟩

end Descent

end SymbolicRegression
