import Mathlib.Algebra.Order.Field.Rat
import SymbolicRegression.Proofs.Minimize.CallCounts
import SymbolicRegression.Proofs.Minimize.InverseHessian

/-!
# Directions of descent

A step goes along the estimate of the inverse Hessian applied to the negated gradient. If the
estimate is positive definite, that way leads downwards unless the gradient is zero, and the step
does not fall back on the identity. Rounding can spoil an estimate. Over exact numbers nothing can:
a run starts from the identity, and a step either keeps its estimate or corrects it, which leaves it
positive definite.

What a step does to the estimate is said once, in `Corrects`, for numbers of any kind. The states of
a run are collected in `Reaches`, whatever ends the run, and two properties are carried along it
together: that the parts of a state have one size, which the update of lists needs to be an update of
matrices, and that the estimate is positive definite.
-/

namespace SymbolicRegression

namespace QuasiNewton

open Minimize
open Exact (entries rows)
/-! ## Runs -/

section Runs

variable {R : Type} [Scalar R]

theorem estimate_of_direction? {state : State R} {s : List R} {slope : R}
    {inverse : List (List R)} (h : direction? state = some (s, slope, inverse)) :
    inverse = state.inverse ∨ inverse = Vector.identity state.gradient.length := by
  rw [direction?] at h
  dsimp only at h
  split at h
  · cases h
    exact .inl rfl
  · split at h
    · cases h
      exact .inr rfl
    · cases h

/-- A step corrects the estimate that its direction was made with, by the way that it has gone and
the change of the gradient on that way. -/
def Corrects (state next : State R) : Prop :=
  ∃ s slope inverse, direction? state = some (s, slope, inverse) ∧
    next.inverse = update inverse (Vector.sub next.point state.point)
      (Vector.sub next.gradient state.gradient)

theorem all_step_corrects {m : Type → Type} [Monad m] {M : Modality m} {V : List R → R → Prop}
    {objective : List R → m R} (settings : RunSettings R) (ls : LineSearch R)
    (h : ∀ x, M.All (V x) (objective x)) (state : State R) :
    M.counting.AllSome (Corrects state) (step settings ls objective state) := by
  rw [step]
  refine M.counting.all_bind (M.all_get fun _ => trivial) fun calls _ => ?_
  split
  · exact M.counting.allSome_none
  dsimp only
  split
  · exact M.counting.allSome_none
  split
  · exact M.counting.allSome_none
  case h_2 s slope inverse hdirection =>
    refine (LineSearch.all_search ls _ _ (Minimize.all_evaluateWithin settings h)).bind
      M.counting.allSome_none fun trial _ => ?_
    refine (Minimize.all_valueAndGradient settings h trial.point).bind
      M.counting.allSome_none fun given _ => ?_
    obtain ⟨value, gradient⟩ := given
    exact M.counting.allSome_some ⟨s, slope, inverse, hdirection, rfl⟩

/-- The states that a run from `start` comes to, with the count of evaluations and the state of the
objective, which is `s` at first. The limit on the number of steps is left aside, so these are the
states at the start of every step of every run. -/
inductive Reaches {σ : Type} (settings : RunSettings R) (ls : LineSearch R)
    (objective : List R → StateM σ R) (start : List R) (s : σ) : State R → Nat → σ → Prop
  | start {value : R} {gradient : List R} {calls : Nat} {s' : σ}
      (h : ((valueAndGradient settings objective start).run 0).run s =
        ((some (value, gradient), calls), s')) :
      Reaches settings ls objective start s
        ⟨start, value, gradient, Vector.identity start.length⟩ calls s'
  | step {state next : State R} {calls calls' : Nat} {s₁ s₂ : σ}
      (hstate : Reaches settings ls objective start s state calls s₁)
      (h : ((QuasiNewton.step settings ls objective state).run calls).run s₁ =
        ((some next, calls'), s₂)) :
      Reaches settings ls objective start s next calls' s₂

variable {σ : Type} {settings : RunSettings R} {ls : LineSearch R}
  {objective : List R → StateM σ R} {start : List R} {s : σ}

theorem run_bind {α β : Type} (x : Counting (StateM σ) α) (f : α → Counting (StateM σ) β)
    (calls : Nat) (s : σ) :
    ((x >>= f).run calls).run s =
      ((f ((x.run calls).run s).1.1).run ((x.run calls).run s).1.2).run ((x.run calls).run s).2 :=
  rfl

theorem exists_reaches_of_steps (k : Nat) {state : State R} {calls : Nat} {s₁ : σ}
    (h : Reaches settings ls objective start s state calls s₁) :
    ∃ calls' s₂, Reaches settings ls objective start s
      (((steps settings ls objective k state).run calls).run s₁).1.1 calls' s₂ := by
  induction k generalizing state calls s₁ with
  | zero => exact ⟨calls, s₁, h⟩
  | succ k ih =>
      rw [steps, run_bind]
      rcases hstep : ((step settings ls objective state).run calls).run s₁ with
        ⟨⟨_ | next, calls'⟩, s₂⟩
      · exact ⟨calls, s₁, h⟩
      · exact ih (h.step hstep)

/-- What a run gives is the point and the value of a state that it comes to. -/
theorem exists_reaches_of_minimize {o : Outcome R} {calls : Nat} {s' : σ}
    (h : ((minimize settings ls objective start).run 0).run s = ((some o, calls), s')) :
    ∃ state calls' s₁, Reaches settings ls objective start s state calls' s₁ ∧
      o.params = state.point ∧ o.value = state.value := by
  rw [minimize, run_bind] at h
  rcases hfirst : ((valueAndGradient settings objective start).run 0).run s with
    ⟨⟨_ | ⟨value, gradient⟩, calls'⟩, s₁⟩
  · rw [hfirst] at h
    cases h
  · rw [hfirst] at h
    obtain ⟨calls₂, s₂, hstate⟩ :=
      exists_reaches_of_steps settings.iterations (Reaches.start hfirst)
    refine ⟨_, calls₂, s₂, hstate, ?_⟩
    rw [run_bind, run_bind] at h
    cases h
    exact ⟨rfl, rfl⟩

end Runs

/-! ## Exact arithmetic -/

section Exact

variable {K : Type} [Field K] [LinearOrder K] [IsStrictOrderedRing K] {sqrt : K → K} {n : ℕ}

theorem direction?_of_isEstimate {state : State (Exact K sqrt)}
    (hinverse : IsEstimate sqrt n state.inverse) (hlength : state.gradient.length = n)
    (hgradient : ∃ c ∈ state.gradient, c.val ≠ 0) :
    let s := Vector.negate (Vector.apply state.inverse state.gradient)
    Scalar.lt (Vector.dot state.gradient s) Scalar.zero = true ∧
      direction? state = some (s, Vector.dot state.gradient s, state.inverse) := by
  intro s
  obtain ⟨H, hH, hpositive⟩ := hinverse
  obtain ⟨g, hg⟩ := Exact.exists_entries sqrt hlength
  have hne : g ≠ 0 := by
    rintro rfl
    obtain ⟨c, hc, hzero⟩ := hgradient
    rw [hg, entries, List.mem_ofFn] at hc
    obtain ⟨i, rfl⟩ := hc
    exact hzero rfl
  have hslope : Vector.dot state.gradient s = Exact.of (-(g ⬝ᵥ H.mulVec g)) := by
    simp only [s, hg, hH, Exact.apply_rows, Exact.negate_entries, Exact.dot_entries,
      dotProduct_neg]
  have hneg : -(g ⬝ᵥ H.mulVec g) < 0 := neg_lt_zero.mpr (hpositive.pos g hne)
  have hdescends : descends (Vector.dot state.gradient s) = true := by
    rw [descends, hslope, Exact.isFinite_eq, Bool.true_and, Exact.zero_eq, Exact.le_of_of,
      decide_eq_false hneg.not_ge]
    rfl
  refine ⟨?_, ?_⟩
  · rw [hslope, Exact.zero_eq, Exact.lt_of_of, decide_eq_true hneg]
  · rw [direction?]
    exact if_pos hdescends

variable {σ : Type} {settings : RunSettings (Exact K sqrt)} {ls : LineSearch (Exact K sqrt)}
  {objective : List (Exact K sqrt) → StateM σ (Exact K sqrt)} {start : List (Exact K sqrt)} {s : σ}

/-- At every state of a run the vectors have one size, and the estimate is positive definite. -/
theorem Reaches.isEstimate {state : State (Exact K sqrt)} {calls : Nat} {s' : σ}
    (h : Reaches settings ls objective start s state calls s') :
    state.IsSound (fun _ _ => True) start.length ∧
      IsEstimate sqrt start.length state.inverse := by
  have hobjective : ∀ x, (Modality.stateful σ).All (fun _ => True) (objective x) :=
    fun _ _ => trivial
  induction h with
  | start h =>
      obtain ⟨hvalue, hgradient⟩ :=
        Minimize.all_valueAndGradient (V := fun _ _ => True) settings hobjective start 0 s _
          (congrArg (·.1.1) h)
      exact ⟨⟨hvalue, rfl, hgradient, Vector.length_identity _⟩, isEstimate_identity sqrt _⟩
  | @step state next calls calls' s₁ s₂ _ h ih =>
      obtain ⟨hsound, hestimate⟩ := ih
      have hmem : next ∈ (((QuasiNewton.step settings ls objective state).run calls).run s₁).1.1 :=
        congrArg (·.1.1) h
      have hnext : next.IsSound (fun _ _ => True) start.length :=
        all_step settings ls hobjective hsound calls s₁ next hmem
      obtain ⟨_, _, inverse, hdirection, hinverse⟩ :=
        all_step_corrects (V := fun _ _ => True) settings ls hobjective state calls s₁ next hmem
      have hbefore : IsEstimate sqrt start.length inverse := by
        obtain rfl | rfl := estimate_of_direction? hdirection
        · exact hestimate
        · rw [hsound.gradient]
          exact isEstimate_identity sqrt _
      rw [hinverse]
      refine ⟨hnext, hbefore.update ?_ ?_⟩
      · rw [Vector.length_sub, hnext.point, hsound.point, Nat.min_self]
      · rw [Vector.length_sub, hnext.gradient, hsound.gradient, Nat.min_self]

/-- Over exact numbers the update turns a positive definite estimate into a positive definite one
that takes the change of the gradient to the step, whenever the two agree in direction. So at every
state of a run the estimate is positive definite, and a gradient that is not zero gives a direction
that leads downwards. -/
theorem estimate_stays_positive_definite (sqrt : K → K) :
    (∀ {n : ℕ} (H : Matrix.Square n K) (dx dg : Fin n → K), IsPositiveDefinite H →
      0 < dx ⬝ᵥ dg → ∃ H' : Matrix.Square n K,
        update (rows sqrt H) (entries sqrt dx) (entries sqrt dg) = rows sqrt H' ∧
          IsPositiveDefinite H' ∧ H'.mulVec dg = dx) ∧
    ∀ {σ : Type} (settings : RunSettings (Exact K sqrt)) (ls : LineSearch (Exact K sqrt))
      (objective : List (Exact K sqrt) → StateM σ (Exact K sqrt)) (start : List (Exact K sqrt))
      (s : σ) (state : State (Exact K sqrt)) (calls : Nat) (s' : σ),
      Reaches settings ls objective start s state calls s' →
        IsEstimate sqrt start.length state.inverse ∧
        ((∃ c ∈ state.gradient, c.val ≠ 0) →
          let direction := Vector.negate (Vector.apply state.inverse state.gradient)
          let slope := Vector.dot state.gradient direction
          Scalar.lt slope Scalar.zero = true ∧
            direction? state = some (direction, slope, state.inverse)) := by
  refine ⟨fun H dx dg hH hagree => ?_, fun settings ls objective start s state calls s' h => ?_⟩
  · exact ⟨corrected H dx dg, update_rows sqrt H hagree, hH.corrected hagree,
      corrected_mulVec_change H hagree.ne'⟩
  · obtain ⟨hsound, hestimate⟩ := h.isEstimate
    exact ⟨hestimate, direction?_of_isEstimate hestimate hsound.gradient⟩

end Exact

/-- A valley that is twice as steep to the sides. -/
def valley (x : List (Exact ℚ id)) : StateM Unit (Exact ℚ id) :=
  match x with
  | [a, b] => return a * a + Exact.of 2 * (b * b)
  | _ => return Scalar.zero

def valleySettings : RunSettings (Exact ℚ id) where
  iterations := 5
  callLimit := 0
  gradientTolerance := .of 0
  gradientStep := .of 1
  curvatureStep := .of 1
  leastCurvature := .of 1

def valleySearch : LineSearch (Exact ℚ id) where
  sufficientDecrease := .of (1 / 10000)
  shrinkMost := .of (1 / 10)
  shrinkLeast := .of (1 / 2)
  flatness := .of 0
  halvings := 53
  trials := 1000

/-- In the valley the first step does not lead to the bottom, and the second direction is made with a
corrected estimate. -/
theorem estimate_stays_positive_definite_valley :
    (IsPositiveDefinite (!![2, 0; 0, 1] : Matrix.Square 2 ℚ) ∧
      0 < (![1, 0] : Fin 2 → ℚ) ⬝ᵥ ![1, 1] ∧
      ∃ H' : Matrix.Square 2 ℚ,
        update (rows id !![2, 0; 0, 1]) (entries id ![1, 0]) (entries id ![1, 1]) = rows id H' ∧
          IsPositiveDefinite H' ∧ H'.mulVec ![1, 1] = ![1, 0]) ∧
    ∃ state calls s',
      Reaches valleySettings valleySearch valley [.of 1, .of 1] () state calls s' ∧
        state.gradient = [.of (8 / 9), .of (-4 / 9)] ∧ (∃ c ∈ state.gradient, c.val ≠ 0) ∧
        IsEstimate id 2 state.inverse ∧
        let direction := Vector.negate (Vector.apply state.inverse state.gradient)
        Scalar.lt (Vector.dot state.gradient direction) Scalar.zero = true := by
  have hpositive : IsPositiveDefinite (!![2, 0; 0, 1] : Matrix.Square 2 ℚ) := by
    refine ⟨by decide, fun v hv => ?_⟩
    have hform : v ⬝ᵥ Matrix.mulVec !![2, 0; 0, 1] v = 2 * v 0 ^ 2 + v 1 ^ 2 := by
      rw [dotProduct, Fin.sum_univ_two, Matrix.mulVec, Matrix.mulVec, dotProduct, dotProduct,
        Fin.sum_univ_two, Fin.sum_univ_two]
      show v 0 * (2 * v 0 + 0 * v 1) + v 1 * (0 * v 0 + 1 * v 1) = _
      ring
    rw [hform]
    by_cases hfirst : v 0 = 0
    · have hsecond : v 1 ≠ 0 := fun hsecond =>
        hv (funext (Fin.forall_fin_two.mpr ⟨hfirst, hsecond⟩))
      positivity
    · positivity
  have hagree : 0 < (![1, 0] : Fin 2 → ℚ) ⬝ᵥ ![1, 1] := by simp
  obtain ⟨hfirst, hsecond⟩ :
      (((valueAndGradient valleySettings valley [.of 1, .of 1]).run 0).run ()).1 =
          (some (.of 3, [.of 2, .of 4]), 5) ∧
        ((((step valleySettings valleySearch valley
          ⟨[.of 1, .of 1], .of 3, [.of 2, .of 4], Vector.identity 2⟩).run 5).run ()).1.1.map
            (·.gradient)) = some [.of (8 / 9), .of (-4 / 9)] := by
    decide +kernel
  obtain ⟨state, hstate, hgradient⟩ := Option.map_eq_some_iff.mp hsecond
  have hreaches := (Reaches.start (Prod.ext hfirst rfl)).step (Prod.ext (Prod.ext hstate rfl) rfl)
  have hne : ∃ c ∈ state.gradient, c.val ≠ 0 := by
    rw [hgradient]
    exact ⟨_, List.mem_cons_self, by norm_num [Exact.of]⟩
  obtain ⟨hestimate, hdescent⟩ := (estimate_stays_positive_definite id).2 valleySettings
    valleySearch valley [.of 1, .of 1] () state _ _ hreaches
  exact ⟨⟨hpositive, hagree,
      (estimate_stays_positive_definite id).1 _ ![1, 0] ![1, 1] hpositive hagree⟩,
    state, _, _, hreaches, hgradient, hne, hestimate, (hdescent hne).1⟩

end QuasiNewton

end SymbolicRegression
