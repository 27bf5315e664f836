import SymbolicRegression.Proofs.FloatOrder
import SymbolicRegression.Proofs.Minimize.LocalRuns

/-!
# What a Newton run keeps, and when it loses it

Newton steps keep the best pair beside the moving one, and a run hands it back at its end. There are
two kinds of ends. A limit, a small gradient, a slope that does not lead downwards and a search
without success all settle the run with the best pair so far. A gradient that cannot be taken, at
the point of a step or at one of the two points beside it, fails the run as a whole, and the best
pair is lost with it.

To say when that happens, a run is taken apart into its course: the pairs that it compares, the
trials that it accepts, and the point of the step that failed. `steps_eq_course` says that the steps
are a function of the course, and `Turn.Describes` says once what a single step can come upon.
From there the pairs all have the value of the objective at their point, a failure is always behind
the last accepted trial, and the fold over the pairs ends with the least of them. That last fact
needs the values to be finite: among undefined ones a fold keeps whatever comes first.
-/

namespace SymbolicRegression

open Minimize

namespace Newton

open Scalar
open Modality (identity)

variable {K : Type} [Scalar K] {m : Type → Type} [Monad m]

/-! ## One step -/

/-- What a step does. -/
inductive Turn (K : Type) where
  /-- It ends the run, with the pair at its point where the gradient there was of use. -/
  | ends (here : Option (Best K))
  /-- A gradient fails, and the run with it. -/
  | fails
  /-- Its line search accepts a trial, and the run goes on from there. -/
  | moves (here : Best K) (trial : LineSearch.Trial K)

/-- A step from `x` once it may be started. -/
def attempt (settings : RunSettings K) (ls : LineSearch K) (objective : List K → m K) (x : K) :
    Counting m (Turn K) := do
  match ← valueAndGradient settings objective [x] with
  | some (value, [gradient]) =>
    if !isFinite gradient then return .ends none
    if le (abs gradient) settings.gradientTolerance then return .ends (some ⟨x, value⟩)
    let eps := settings.curvatureStep * (abs x + one)
    match ← valueAndGradient settings objective [x + eps] with
    | some (_, [above]) =>
      match ← valueAndGradient settings objective [x - eps] with
      | some (_, [below]) =>
        let s := stepOf settings.leastCurvature eps gradient above below
        let slope := gradient * s
        if !isFinite slope || le zero slope then return .ends (some ⟨x, value⟩)
        match ← ls.search (evaluateWithin settings objective) [x] [s] value slope with
        | some trial => return .moves ⟨x, value⟩ trial
        | none => return .ends (some ⟨x, value⟩)
      | _ => return .fails
    | _ => return .fails
  | _ => return .fails

/-- A step from `x`, within the limit. -/
def turn (settings : RunSettings K) (ls : LineSearch K) (objective : List K → m K) (x : K) :
    Counting m (Turn K) := do
  if exhausted settings (← get) then return .ends none else attempt settings ls objective x

/-- The best pair after another one has been seen. -/
def keep (best : Option (Best K)) (seen : Best K) : Option (Best K) :=
  better best seen.point seen.value

/-- Where a run goes on after an accepted trial. -/
def arrival (x : K) (trial : LineSearch.Trial K) : Best K :=
  ⟨trial.point.headD x, trial.value⟩

theorem steps_succ [LawfulMonad m] (settings : RunSettings K) (ls : LineSearch K)
    (objective : List K → m K) (n : Nat) (x : K) (best : Option (Best K)) :
    steps settings ls objective (n + 1) x best =
      (do
        match ← turn settings ls objective x with
        | .ends here => return .settled (here.toList.foldl keep best)
        | .fails => return .failed
        | .moves here trial =>
          steps settings ls objective n (arrival x trial).point
            (keep (keep best here) (arrival x trial))) := by
  rw [steps, turn, bind_assoc]
  refine bind_congr fun calls => ?_
  split
  · rw [pure_bind]
    rfl
  rw [attempt, bind_assoc]
  refine bind_congr fun here? => ?_
  rcases here? with _ | ⟨value, _ | ⟨gradient, _ | _⟩⟩
  case none | some.nil | some.cons.cons =>
    dsimp only
    rw [pure_bind]
  dsimp only
  split
  · rw [pure_bind]
    rfl
  split
  · rw [pure_bind]
    rfl
  rw [bind_assoc]
  refine bind_congr fun above? => ?_
  rcases above? with _ | ⟨_, _ | ⟨above, _ | _⟩⟩
  case none | some.nil | some.cons.cons =>
    dsimp only
    rw [pure_bind]
  dsimp only
  rw [bind_assoc]
  refine bind_congr fun below? => ?_
  rcases below? with _ | ⟨_, _ | ⟨below, _ | _⟩⟩
  case none | some.nil | some.cons.cons =>
    dsimp only
    rw [pure_bind]
  dsimp only
  split
  · rw [pure_bind]
    rfl
  rw [bind_assoc]
  refine bind_congr fun trial? => ?_
  cases trial? <;> rw [pure_bind] <;> rfl

/-! ## The course of a run -/

/-- What happens in a run. -/
structure Course (K : Type) where
  /-- The pairs that are compared with the best one, in their order: those that steps start from,
  and those of the accepted trials. -/
  seen : List (Best K)
  /-- The trials that line searches accept, in their order. -/
  accepted : List (LineSearch.Trial K)
  /-- The point of the step in which a gradient fails, if one does. -/
  failure : Option K

/-- The course of a run of up to `n` steps from `x`. -/
def course (settings : RunSettings K) (ls : LineSearch K) (objective : List K → m K) :
    Nat → K → Counting m (Course K)
  | 0, _ => return ⟨[], [], none⟩
  | n + 1, x => do
    match ← turn settings ls objective x with
    | .ends here => return ⟨here.toList, [], none⟩
    | .fails => return ⟨[], [], some x⟩
    | .moves here trial =>
      let next := arrival x trial
      let rest ← course settings ls objective n next.point
      return ⟨here :: next :: rest.seen, trial :: rest.accepted, rest.failure⟩

/-- How a run ends that has this course: with the best pair that it has seen, or with nothing because
a gradient failed. -/
def Course.stop (best : Option (Best K)) (c : Course K) : Stop K :=
  match c.failure with
  | none => .settled (c.seen.foldl keep best)
  | some _ => .failed

theorem steps_eq_course [LawfulMonad m] (settings : RunSettings K) (ls : LineSearch K)
    (objective : List K → m K) (n : Nat) (x : K) (best : Option (Best K)) :
    steps settings ls objective n x best =
      (do let c ← course settings ls objective n x; return c.stop best) := by
  induction n generalizing x best with
  | zero =>
      rw [steps, course, pure_bind]
      rfl
  | succ n ih =>
      rw [steps_succ, course, bind_assoc]
      refine bind_congr fun t => ?_
      cases t with
      | ends here =>
          dsimp only
          rw [pure_bind]
          rfl
      | fails =>
          dsimp only
          rw [pure_bind]
          rfl
      | moves here trial =>
          dsimp only
          rw [ih, bind_assoc]
          refine bind_congr fun rest => ?_
          rw [pure_bind]
          rfl

/-! ## What a step comes upon -/

section Deterministic

variable (settings : RunSettings K) (f : List K → K)

/-- The value and the differenced gradient at a point, where its neighbours have finite values. -/
def differenced? (x : K) : Option (K × K) := do
  let h := settings.gradientStep * (abs x + one)
  let value ← finite? (f [x])
  let above ← finite? (f [x + h])
  let below ← finite? (f [x - h])
  return (value, (above - below) / (two * h))

/-- Are the value and the differenced gradient at the point finite? -/
def isUsable (x : K) : Bool :=
  (differenced? settings f x).any fun r => isFinite r.2

/-- A gradient fails at the point, or at one of the two points beside it that the curvature is taken
from. -/
def FailsNear (x : K) : Prop :=
  let eps := settings.curvatureStep * (abs x + one)
  ∃ y ∈ [x, x + eps, x - eps], differenced? settings f y = none

theorem all_differenced (x : K) :
    identity.counting.All
      (fun r => r = (differenced? settings f x).map fun r => (r.1, [r.2]))
      (valueAndGradient (m := Id) settings f [x]) := by
  intro calls
  have hevaluate : ∀ y calls, evaluate (m := Id) f y calls = (finite? (f y), calls + 1) :=
    fun _ _ => rfl
  show (valueAndGradient (m := Id) settings f [x] calls).1 = _
  rw [differenced?]
  cases hvalue : finite? (f [x]) <;>
    cases habove : finite? (f [x + settings.gradientStep * (abs x + one)]) <;>
      cases hbelow : finite? (f [x - settings.gradientStep * (abs x + one)]) <;>
        simp [valueAndGradient, gradientFrom, bind, StateT.bind, pure, StateT.pure, hevaluate,
          hvalue, habove, hbelow]

variable {settings f}

/-- The pair has the value that the objective has at its point, and a finite one. -/
def Best.IsPair (f : List K → K) (b : Best K) : Prop :=
  IsValue (fun x v => v = f x) [b.point] b.value

theorem isPair_of_differenced? {x value gradient : K}
    (h : differenced? settings f x = some (value, gradient)) : Best.IsPair f ⟨x, value⟩ := by
  obtain ⟨v, hv, h⟩ := Option.bind_eq_some_iff.1 h
  obtain ⟨_, -, h⟩ := Option.bind_eq_some_iff.1 h
  obtain ⟨_, -, h⟩ := Option.bind_eq_some_iff.1 h
  cases h
  obtain ⟨hfinite, rfl⟩ := Scalar.mem_finite?.1 hv
  exact ⟨rfl, hfinite⟩

/-- All that a step from the point can come upon. -/
def Turn.Describes (settings : RunSettings K) (f : List K → K) (x : K) : Turn K → Prop
  | .ends none => isUsable settings f x = false
  | .ends (some here) => here.point = x ∧ here.IsPair f
  | .fails => FailsNear settings f x
  | .moves here trial =>
    (here.point = x ∧ here.IsPair f) ∧
      trial.point = [(arrival x trial).point] ∧ (arrival x trial).IsPair f

theorem all_attempt (ls : LineSearch K) (x : K) :
    identity.counting.All (Turn.Describes settings f x)
      (attempt (m := Id) settings ls f x) := by
  have hf : ∀ x, identity.All (fun v => v = f x) (f x) := fun _ => rfl
  have hfails : ∀ y ∈ [x, x + settings.curvatureStep * (abs x + one),
      x - settings.curvatureStep * (abs x + one)], differenced? settings f y = none →
      identity.counting.All (Turn.Describes settings f x) (pure .fails) :=
    fun y hy hnone => identity.counting.all_pure ⟨y, hy, hnone⟩
  rw [attempt]
  refine identity.counting.all_bind (all_differenced settings f x) ?_
  rintro _ rfl
  cases hx : differenced? settings f x with
  | none => exact hfails x (by simp) hx
  | some r =>
      obtain ⟨value, gradient⟩ := r
      have hpair : Best.IsPair f ⟨x, value⟩ := isPair_of_differenced? hx
      dsimp only [Option.map_some]
      split
      case isTrue hgradient =>
        have hunusable : isUsable settings f x = false := by
          rw [isUsable, hx]
          simpa using hgradient
        exact identity.counting.all_pure hunusable
      split
      · exact identity.counting.all_pure ⟨rfl, hpair⟩
      refine identity.counting.all_bind (all_differenced settings f _) ?_
      rintro _ rfl
      cases habove : differenced? settings f (x + settings.curvatureStep * (abs x + one)) with
      | none => exact hfails _ (by simp) habove
      | some above =>
          dsimp only [Option.map_some]
          refine identity.counting.all_bind (all_differenced settings f _) ?_
          rintro _ rfl
          cases hbelow : differenced? settings f (x - settings.curvatureStep * (abs x + one)) with
          | none => exact hfails _ (by simp) hbelow
          | some below =>
              dsimp only [Option.map_some]
              split
              · exact identity.counting.all_pure ⟨rfl, hpair⟩
              refine (LineSearch.all_search ls _ _
                (Minimize.all_evaluateWithin settings hf)).bind
                (identity.counting.all_pure ⟨rfl, hpair⟩) fun trial htrial => ?_
              -- the line through one number along another has a single coordinate
              have hpoint : trial.point = [(arrival x trial).point] := by
                rw [arrival, htrial.point]
                rfl
              have harrival : (arrival x trial).IsPair f := by
                rw [Best.IsPair, ← hpoint]
                exact htrial.value
              exact identity.counting.all_pure ⟨⟨rfl, hpair⟩, hpoint, harrival⟩

/-- Within the limit a step is started, and otherwise it ends the run. -/
theorem all_turn (ls : LineSearch K) (x : K) :
    identity.counting.All (fun t => t = .ends none ∨ t.Describes settings f x)
      (turn (m := Id) settings ls f x) := by
  rw [turn]
  refine identity.counting.all_bind (identity.all_get fun _ => trivial) ?_
  intro calls _
  split
  · exact identity.counting.all_pure (.inl rfl)
  · exact fun calls => .inr (all_attempt ls x calls)

/-- The first step is always started. -/
theorem describes_turn_zero (ls : LineSearch K) (x : K) :
    (turn (m := Id) settings ls f x 0).1.Describes settings f x := by
  have hstarted : exhausted settings 0 = false := by
    rw [exhausted]
    grind
  have hturn : turn (m := Id) settings ls f x 0 = attempt (m := Id) settings ls f x 0 := by
    show (if exhausted settings 0 then pure (.ends none) else attempt (m := Id) settings ls f x :
      Counting Id (Turn K)) 0 = _
    rw [hstarted]
    rfl
  rw [hturn]
  exact all_attempt ls x 0

/-! ## What a run comes upon -/

/-- The point from which a run from `x` with this course does not go on. -/
def Course.reached (x : K) (c : Course K) : List K :=
  (c.accepted.getLast?.map (·.point)).getD [x]

/-- All that a run from the point can come upon. -/
structure Course.IsSound (settings : RunSettings K) (f : List K → K) (x : K) (c : Course K) :
    Prop where
  seen : ∀ b ∈ c.seen, b.IsPair f
  accepted : ∀ t ∈ c.accepted, ∃ b ∈ c.seen, t.point = [b.point] ∧ t.value = b.value
  failure : ∀ y ∈ c.failure, FailsNear settings f y ∧ c.reached x = [y]

theorem Course.isSound_ends {x : K} {here : Option (Best K)} (h : ∀ b ∈ here, b.IsPair f) :
    Course.IsSound settings f x ⟨here.toList, [], none⟩ where
  seen := fun b hb => h b (Option.mem_toList.1 hb)
  accepted := fun _ ht => nomatch ht
  failure := fun _ hy => nomatch hy

theorem Course.isSound_fails {x : K} (h : FailsNear settings f x) :
    Course.IsSound settings f x ⟨[], [], some x⟩ where
  seen := fun _ hb => nomatch hb
  accepted := fun _ ht => nomatch ht
  failure := by
    intro y hy
    cases hy
    exact ⟨h, rfl⟩

theorem Course.IsSound.moves {x : K} {here : Best K} {trial : LineSearch.Trial K} {rest : Course K}
    (hhere : here.IsPair f) (hpoint : trial.point = [(arrival x trial).point])
    (harrival : (arrival x trial).IsPair f)
    (hrest : rest.IsSound settings f (arrival x trial).point) :
    Course.IsSound settings f x
      ⟨here :: arrival x trial :: rest.seen, trial :: rest.accepted, rest.failure⟩ where
  seen := by
    simp only [List.forall_mem_cons]
    exact ⟨hhere, harrival, hrest.seen⟩
  accepted := by
    intro t ht
    obtain rfl | ht := List.mem_cons.1 ht
    · exact ⟨arrival x t, by simp, hpoint, rfl⟩
    · obtain ⟨b, hb, heq⟩ := hrest.accepted t ht
      exact ⟨b, List.mem_cons_of_mem _ (List.mem_cons_of_mem _ hb), heq⟩
  failure := by
    intro y hy
    obtain ⟨hfails, hreached⟩ := hrest.failure y hy
    refine ⟨hfails, ?_⟩
    rw [← hreached, Course.reached, Course.reached, List.getLast?_cons]
    cases rest.accepted.getLast? with
    | none => exact hpoint
    | some _ => rfl

theorem all_course (ls : LineSearch K) (n : Nat) (x : K) :
    identity.counting.All (Course.IsSound settings f x)
      (course (m := Id) settings ls f n x) := by
  induction n generalizing x with
  | zero =>
      have hnone : ∀ b ∈ (none : Option (Best K)), b.IsPair f := nofun
      exact identity.counting.all_pure (Course.isSound_ends hnone)
  | succ n ih =>
      rw [course]
      refine identity.counting.all_bind (all_turn ls x) fun t ht => ?_
      cases t with
      | ends here =>
          apply identity.counting.all_pure
          apply Course.isSound_ends
          rintro b rfl
          exact (ht.resolve_left nofun).2
      | fails =>
          exact identity.counting.all_pure
            (Course.isSound_fails (ht.resolve_left nofun))
      | moves here trial =>
          obtain ⟨⟨-, hhere⟩, hpoint, harrival⟩ := ht.resolve_left nofun
          exact identity.counting.all_bind (ih _) fun rest hrest =>
            identity.counting.all_pure (hrest.moves hhere hpoint harrival)

theorem bind_counting {α β : Type} (a : Counting Id α) (b : α → Counting Id β) (calls : Nat) :
    (a >>= b) calls = b (a calls).1 (a calls).2 :=
  rfl

/-- A run that does not fail has seen its start, if that is of use. -/
theorem start_mem_seen (ls : LineSearch K) {n : Nat} (hn : 1 ≤ n) {x : K}
    (hx : isUsable settings f x = true)
    (h : (course (m := Id) settings ls f n x 0).1.failure = none) :
    ∃ b ∈ (course (m := Id) settings ls f n x 0).1.seen, b.point = x := by
  obtain ⟨n, rfl⟩ := Nat.exists_eq_add_of_le' hn
  have hturn : (turn (m := Id) settings ls f x 0).1.Describes settings f x :=
    describes_turn_zero ls x
  rw [course, bind_counting] at h ⊢
  cases ht : (turn (m := Id) settings ls f x 0).1 with
  | ends here =>
      rw [ht] at hturn
      cases here with
      | none => cases hturn.symm.trans hx
      | some here => exact ⟨here, List.mem_singleton_self _, hturn.1⟩
  | fails =>
      rw [ht] at h
      cases h
  | moves here trial =>
      rw [ht] at hturn
      exact ⟨here, List.mem_cons_self, hturn.1.1⟩

variable (settings f)

/-- The course of a whole run from the start. -/
def courseFrom (ls : LineSearch K) (start : K) : Course K :=
  (course (m := Id) settings ls f settings.iterations start 0).1

/-- What a whole run from the start gives. -/
def outcomeFrom? (ls : LineSearch K) (start : K) : Option (Outcome K) :=
  (minimize (m := Id) settings ls f start 0).1

/-- A run gives the best pair that it has seen, or nothing where a gradient failed. -/
theorem outcomeFrom?_eq (ls : LineSearch K) (start : K) :
    ∃ calls, outcomeFrom? settings f ls start =
      match (courseFrom settings f ls start).failure with
      | none => ((courseFrom settings f ls start).seen.foldl keep none).map
          fun b => ⟨[b.point], b.value, calls⟩
      | some _ => none := by
  refine ⟨(course (m := Id) settings ls f settings.iterations start 0).2, ?_⟩
  rw [outcomeFrom?, minimize, steps_eq_course, bind_assoc, bind_counting, pure_bind, courseFrom,
    Course.stop]
  cases (course (m := Id) settings ls f settings.iterations start 0).1.failure with
  | none =>
      dsimp only
      cases (course (m := Id) settings ls f settings.iterations start 0).1.seen.foldl keep none <;>
        rfl
  | some _ => rfl

end Deterministic

/-! ## The best pair -/

/-- There is a best pair so far, and its value is not greater. -/
def Bounds (best : Option (Best Float)) (v : Float) : Prop :=
  ∃ b ∈ best, b.value ≤ v

/-- A pair takes the place of the best one if its value is smaller than that of any before it. -/
theorem keep_cases (best : Option (Best Float)) (b : Best Float) :
    keep best b = some b ∧ (∀ b' ∈ best, b.value < b'.value) ∨
      ∃ b' ∈ best, keep best b = some b' ∧ ¬b.value < b'.value := by
  cases best with
  | none => exact .inl ⟨rfl, nofun⟩
  | some b' =>
      rw [keep, better]
      split
      case isTrue hlt =>
        refine .inl ⟨rfl, fun b'' hb => ?_⟩
        cases hb
        exact of_decide_eq_true hlt
      case isFalse hge => exact .inr ⟨b', rfl, rfl, fun hlt => hge (decide_eq_true hlt)⟩

theorem Bounds.keep {best : Option (Best Float)} {v : Float} (h : Bounds best v)
    (b : Best Float) : Bounds (keep best b) v := by
  obtain ⟨b', hb', hv⟩ := h
  obtain ⟨hkeep, hlt⟩ | ⟨b'', hb'', hkeep, -⟩ := keep_cases best b
  · exact ⟨b, hkeep, FloatOrder.le_trans (FloatOrder.le_of_lt (hlt b' hb')) hv⟩
  · cases Option.mem_unique hb' hb''
    exact ⟨b', hkeep, hv⟩

theorem Bounds.foldl_keep {best : Option (Best Float)} {v : Float} (h : Bounds best v)
    (seen : List (Best Float)) : Bounds (seen.foldl Newton.keep best) v := by
  induction seen generalizing best with
  | nil => exact h
  | cons b seen ih => exact ih (h.keep b)

section Pairs

variable {f : List Float → Float} {best : Option (Best Float)}

theorem isPair_keep (hbest : ∀ b ∈ best, b.IsPair f) {b : Best Float} (hb : b.IsPair f) :
    ∀ b' ∈ keep best b, b'.IsPair f := by
  intro b' hb'
  obtain ⟨hkeep, -⟩ | ⟨b'', hb'', hkeep, -⟩ := keep_cases best b
  · cases Option.mem_unique hkeep hb'
    exact hb
  · cases Option.mem_unique hkeep hb'
    exact hbest b' hb''

/-- Finite values are defined, so that the one that is not smaller is greater or equal. -/
theorem bounds_keep (hbest : ∀ b ∈ best, b.IsPair f) {b : Best Float} (hb : b.IsPair f) :
    Bounds (keep best b) b.value := by
  have hdefined : b.value.isNaN = false := FloatOrder.isNaN_eq_false_of_isFinite hb.isFinite
  obtain ⟨hkeep, -⟩ | ⟨b', hb', hkeep, hge⟩ := keep_cases best b
  · exact ⟨b, hkeep, FloatOrder.le_refl hdefined⟩
  · have hdefined' : b'.value.isNaN = false :=
      FloatOrder.isNaN_eq_false_of_isFinite (hbest b' hb').isFinite
    exact ⟨b', hkeep, FloatOrder.le_of_not_lt hdefined hdefined' hge⟩

theorem isPair_foldl_keep {seen : List (Best Float)} (hbest : ∀ b ∈ best, b.IsPair f)
    (hseen : ∀ b ∈ seen, b.IsPair f) : ∀ b ∈ seen.foldl keep best, b.IsPair f := by
  induction seen generalizing best with
  | nil => exact hbest
  | cons b seen ih =>
      rw [List.forall_mem_cons] at hseen
      exact ih (isPair_keep hbest hseen.1) hseen.2

theorem bounds_foldl_keep {seen : List (Best Float)} (hbest : ∀ b ∈ best, b.IsPair f)
    (hseen : ∀ b ∈ seen, b.IsPair f) : ∀ b ∈ seen, Bounds (seen.foldl keep best) b.value := by
  induction seen generalizing best with
  | nil => exact nofun
  | cons b seen ih =>
      rw [List.forall_mem_cons] at hseen ⊢
      exact ⟨(bounds_keep hbest hseen.1).foldl_keep seen,
        ih (isPair_keep hbest hseen.1) hseen.2⟩

end Pairs

/-- From a start of use, and with a step to take, a run gives nothing exactly if a gradient fails in
the step from the last point that it has reached. What it gives otherwise is a point and the value
there, which is not greater than the value at the start nor that of any accepted trial. -/
theorem minimize_keeps_best (settings : RunSettings Float) (ls : LineSearch Float)
    (f : List Float → Float) (start : Float) (hiterations : 1 ≤ settings.iterations)
    (hstart : isUsable settings f start = true) :
    (outcomeFrom? settings f ls start = none ↔
      ∃ y ∈ (courseFrom settings f ls start).failure,
        FailsNear settings f y ∧ (courseFrom settings f ls start).reached start = [y]) ∧
    ∀ o ∈ outcomeFrom? settings f ls start,
      (∃ y, o.params = [y] ∧ o.value = f [y]) ∧ o.value ≤ f [start] ∧
        ∀ t ∈ (courseFrom settings f ls start).accepted,
          t.value = f t.point ∧ o.value ≤ t.value := by
  have hsound : (courseFrom settings f ls start).IsSound settings f start :=
    all_course ls settings.iterations start 0
  obtain ⟨calls, houtcome⟩ := outcomeFrom?_eq settings f ls start
  cases hfailure : (courseFrom settings f ls start).failure with
  | some y =>
      rw [houtcome, hfailure]
      exact ⟨iff_of_true rfl ⟨y, rfl, hsound.failure y hfailure⟩, nofun⟩
  | none =>
      obtain ⟨first, hfirst, hpoint⟩ := start_mem_seen ls hiterations hstart hfailure
      have hnone : ∀ b ∈ (none : Option (Best Float)), b.IsPair f := nofun
      have hbounds := bounds_foldl_keep hnone hsound.seen
      obtain ⟨best, hbest, -⟩ := hbounds first hfirst
      have hleast : ∀ b ∈ (courseFrom settings f ls start).seen, best.value ≤ b.value := by
        intro b hb
        obtain ⟨b', hb', hle⟩ := hbounds b hb
        cases Option.mem_unique hbest hb'
        exact hle
      have hpair : best.IsPair f := isPair_foldl_keep hnone hsound.seen best hbest
      have hvalue : first.value = f [start] := hpoint ▸ (hsound.seen first hfirst).value
      rw [houtcome, hfailure, hbest]
      refine ⟨iff_of_false nofun nofun, fun o ho => ?_⟩
      cases ho
      refine ⟨⟨best.point, rfl, hpair.value⟩, hvalue ▸ hleast first hfirst, fun t ht => ?_⟩
      obtain ⟨b, hb, hpoint, hvalue⟩ := hsound.accepted t ht
      rw [hpoint, hvalue]
      exact ⟨(hsound.seen b hb).value, hleast b hb⟩

/-- A parabola with its minimum at zero that is undefined below the edge. -/
def parabolaFrom (edge : Float) (x : List Float) : Float :=
  let c := x.headD 0
  if c < edge then 0 / 0 else c * c

theorem minimize_keeps_best_parabola :
    (1 ≤ ({} : Descent).runSettings.iterations ∧
      isUsable ({} : Descent).runSettings (parabolaFrom (-1)) 1 = true) ∧
    ∃ o ∈ outcomeFrom? ({} : Descent).runSettings (parabolaFrom (-1)) Descent.lineSearch 1,
      (∃ y, o.params = [y] ∧ o.value = parabolaFrom (-1) [y]) ∧ o.value ≤ parabolaFrom (-1) [1] ∧
        ∀ t ∈ (courseFrom ({} : Descent).runSettings (parabolaFrom (-1))
            Descent.lineSearch 1).accepted,
          t.value = parabolaFrom (-1) t.point ∧ o.value ≤ t.value := by
  have hiterations : 1 ≤ ({} : Descent).runSettings.iterations := by decide
  have hstart : isUsable ({} : Descent).runSettings (parabolaFrom (-1)) 1 = true := by
    decide +kernel
  have hsome : (outcomeFrom? ({} : Descent).runSettings (parabolaFrom (-1))
      Descent.lineSearch 1).isSome = true := by
    decide +kernel
  obtain ⟨o, ho⟩ := Option.isSome_iff_exists.1 hsome
  exact ⟨⟨hiterations, hstart⟩, o, ho,
    (minimize_keeps_best _ Descent.lineSearch (parabolaFrom (-1)) 1 hiterations hstart).2 o ho⟩

/-- Where the domain ends at the minimum, the run comes so close to it that it cannot take the
gradient any more. It has accepted a trial with a smaller value by then, and gives nothing. -/
theorem minimize_loses_progress :
    isUsable ({} : Descent).runSettings (parabolaFrom 0) 1 = true ∧
      outcomeFrom? ({} : Descent).runSettings (parabolaFrom 0) Descent.lineSearch 1 = none ∧
      ∃ t ∈ (courseFrom ({} : Descent).runSettings (parabolaFrom 0) Descent.lineSearch 1).accepted,
        t.value < parabolaFrom 0 [1] := by
  refine ⟨by decide +kernel, Option.isNone_iff_eq_none.1 (by decide +kernel), ?_⟩
  have hsmaller : (courseFrom ({} : Descent).runSettings (parabolaFrom 0)
      Descent.lineSearch 1).accepted.any (fun t => t.value < parabolaFrom 0 [1]) = true := by
    decide +kernel
  simpa only [List.any_eq_true, decide_eq_true_eq] using hsmaller

end Newton

end SymbolicRegression
