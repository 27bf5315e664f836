import Mathlib.Data.Option.Basic
import SymbolicRegression.Minimize.Optimizer

/-!
# A local run pairs its point with the value there

A descent carries a point and a value side by side: through the trials of a line search, through the
steps of a run, and through the best pair that Newton steps keep beside the moving one. Each pair is
made in one place, by an evaluation, and must not be mixed with another one on the way out. The
proof names the pair at every stage (a trial, a state, an outcome) and says of each function that
whatever it gives is such a pair, that its value is finite, and that the point has as many
coordinates as the start.

The objective runs in any monad, so "whatever it gives" is a parameter too: a `Modality` turns a
property of results into a property of computations. Counting the evaluations does not get in the
way, since a property is asked for whatever the count is.
-/

namespace SymbolicRegression

/-- What it means in a monad that all results of a computation have a property. -/
structure Modality (m : Type → Type) [Monad m] where
  All : ∀ {α : Type}, (α → Prop) → m α → Prop
  all_pure : ∀ {α : Type} {P : α → Prop} {a : α}, P a → All P (pure a)
  all_bind : ∀ {α β : Type} {P : α → Prop} {Q : β → Prop} {x : m α} {f : α → m β},
    All P x → (∀ a, P a → All Q (f a)) → All Q (x >>= f)

namespace Modality

/-- Without effects there is one result. -/
def identity : Modality Id where
  All P x := P x
  all_pure h := h
  all_bind hx hf := hf _ hx

variable {m : Type → Type} [Monad m] (M : Modality m)

/-- The same whatever the count is. -/
def counting : Modality (Minimize.Counting m) where
  All P x := ∀ calls, M.All (fun r : _ × Nat => P r.1) (x calls)
  all_pure h _ := M.all_pure h
  all_bind hx hf calls := M.all_bind (hx calls) fun (a, calls) ha => hf a ha calls

/-- Of a computation that may give nothing: whatever it gives has the property. -/
def AllSome {α : Type} (P : α → Prop) (x : m (Option α)) : Prop :=
  M.All (fun a? => ∀ a ∈ a?, P a) x

variable {α β : Type} {P : α → Prop}

theorem allSome_none : M.AllSome P (pure none) :=
  M.all_pure fun _ h => nomatch h

theorem allSome_some {a : α} (h : P a) : M.AllSome P (pure (some a)) := by
  apply M.all_pure
  intro b hb
  cases hb
  exact h

theorem allSome_map {Q : β → Prop} {a? : Option α} (ha : ∀ a ∈ a?, P a) {f : α → β}
    (hf : ∀ a, P a → Q (f a)) : M.AllSome Q (pure (a?.map f)) := by
  apply M.all_pure
  intro b hb
  obtain ⟨a, hmem, rfl⟩ := Option.mem_map.1 hb
  exact hf a (ha a hmem)

/-- What follows may be nothing too, or goes on from a result with the property. -/
theorem AllSome.bind {M : Modality m} {Q : β → Prop} {x : m (Option α)} {f : Option α → m β}
    (hx : M.AllSome P x) (hnone : M.All Q (f none)) (hsome : ∀ a, P a → M.All Q (f (some a))) :
    M.All Q (x >>= f) := by
  refine M.all_bind hx fun a? ha => ?_
  cases a? with
  | none => exact hnone
  | some a => exact hsome a (ha a rfl)

theorem all_get {P : Nat → Prop} (h : ∀ calls, P calls) : M.counting.All P get :=
  fun calls => M.all_pure (h calls)

theorem all_modify {f : Nat → Nat} : M.counting.All (fun _ => True) (modify f) :=
  fun _ => M.all_pure trivial

theorem all_liftM {x : m α} (h : M.All P x) : M.counting.All P (liftM x) :=
  fun _ => M.all_bind h fun _ ha => M.all_pure ha

end Modality

variable {K : Type} [Scalar K] {m : Type → Type} [Monad m] {M : Modality m}
  {objective : List K → m K} {V : List K → K → Prop}

/-- A finite value that the objective may have at the point. -/
structure IsValue (V : List K → K → Prop) (x : List K) (v : K) : Prop where
  value : V x v
  isFinite : Scalar.isFinite v = true

theorem Scalar.mem_finite? {x v : K} : v ∈ Scalar.finite? x ↔ Scalar.isFinite x = true ∧ x = v := by
  rw [Scalar.finite?, Option.mem_def, Option.ite_none_right_eq_some, Option.some_inj]

theorem Vector.length_along (x s : List K) (alpha : K) :
    (Vector.along x alpha s).length = min x.length s.length :=
  List.length_zipWith

theorem Vector.length_sub (v w : List K) : (Vector.sub v w).length = min v.length w.length :=
  List.length_zipWith

theorem Vector.length_identity (n : Nat) : (identity n : List (List K)).length = n := by
  rw [identity, List.length_map, List.length_range]

/-! ## Evaluations -/

namespace Minimize

theorem all_evaluate (h : ∀ x, M.All (V x) (objective x)) (x : List K) :
    M.counting.AllSome (IsValue V x) (evaluate objective x) := by
  rw [evaluate]
  refine M.counting.all_bind M.all_modify fun _ _ => ?_
  refine M.counting.all_bind (M.all_liftM (h x)) fun v hv => ?_
  apply M.counting.all_pure
  intro w hw
  obtain ⟨hfinite, rfl⟩ := Scalar.mem_finite?.1 hw
  exact ⟨hv, hfinite⟩

theorem all_evaluateWithin (settings : RunSettings K) (h : ∀ x, M.All (V x) (objective x))
    (x : List K) :
    M.counting.AllSome (IsValue V x) (evaluateWithin settings objective x) := by
  rw [evaluateWithin]
  refine M.counting.all_bind (M.all_get fun _ => trivial) fun calls _ => ?_
  split
  · exact M.counting.allSome_none
  · exact all_evaluate h x

/-- A gradient has one component for each parameter. -/
theorem all_gradientFrom (settings : RunSettings K) (h : ∀ x, M.All (V x) (objective x))
    (before after : List K) :
    M.counting.AllSome (fun g => g.length = after.length)
      (gradientFrom settings objective before after) := by
  induction after generalizing before with
  | nil => exact M.counting.allSome_some rfl
  | cons xi after ih =>
      rw [gradientFrom]
      refine M.counting.all_bind (all_evaluate h _) fun up _ => ?_
      refine M.counting.all_bind (all_evaluate h _) fun down _ => ?_
      split
      · refine M.counting.all_bind (ih _) fun others hothers => ?_
        exact M.counting.allSome_map hothers fun g hg => congrArg (· + 1) hg
      · exact M.counting.allSome_none

theorem all_valueAndGradient (settings : RunSettings K) (h : ∀ x, M.All (V x) (objective x))
    (x : List K) :
    M.counting.AllSome (fun r => IsValue V x r.1 ∧ r.2.length = x.length)
      (valueAndGradient settings objective x) := by
  rw [valueAndGradient]
  refine (all_evaluate h x).bind M.counting.allSome_none fun v hv => ?_
  refine M.counting.all_bind (all_gradientFrom settings h [] x) fun g? hg => ?_
  exact M.counting.allSome_map hg fun g hg => ⟨hv, hg⟩

end Minimize

/-! ## Line searches -/

namespace LineSearch

variable {valueAt : List K → m (Option K)} {x s : List K}

/-- A trial lies on the line, as far along as its step says, and has the value of its point. -/
structure IsTrial (V : List K → K → Prop) (x s : List K) (t : Trial K) : Prop where
  point : t.point = Vector.along x t.step s
  value : IsValue V t.point t.value

/-- That its value is finite is asked once more of a trial, and changes nothing. -/
theorem isTrial_of_bind {alpha v : K} {v? : Option K}
    (hv : ∀ v ∈ v?, IsValue V (Vector.along x alpha s) v) (h : v?.bind Scalar.finite? = some v) :
    IsTrial V x s ⟨alpha, v, Vector.along x alpha s⟩ := by
  obtain ⟨w, hw, hfinite⟩ := Option.bind_eq_some_iff.1 h
  obtain ⟨-, rfl⟩ := Scalar.mem_finite?.1 hfinite
  exact ⟨rfl, hv w hw⟩

theorem all_firstTrial (h : ∀ y, M.AllSome (IsValue V y) (valueAt y)) (n : Nat) (alpha : K) :
    M.AllSome (IsTrial V x s) (firstTrial valueAt x s n alpha) := by
  induction n generalizing alpha with
  | zero => exact M.allSome_none
  | succ n ih =>
      rw [firstTrial]
      refine M.all_bind (h _) fun v? hv => ?_
      split
      case h_1 v hbind => exact M.allSome_some (isTrial_of_bind hv hbind)
      case h_2 => exact ih _

theorem all_shrink (ls : LineSearch K) (phi0 slope : K)
    (h : ∀ y, M.AllSome (IsValue V y) (valueAt y)) (n : Nat) (before : Option (Trial K))
    (t : Trial K) (ht : IsTrial V x s t) :
    M.AllSome (IsTrial V x s) (ls.shrink valueAt x s phi0 slope n before t) := by
  induction n generalizing before t with
  | zero => exact M.allSome_none
  | succ n ih =>
      rw [shrink]
      split
      · exact M.allSome_some ht
      dsimp only
      split
      · exact M.allSome_none
      refine M.all_bind (h _) fun v? hv => ?_
      split
      case h_1 v hbind => exact ih _ _ (isTrial_of_bind hv hbind)
      case h_2 => exact M.allSome_none

theorem all_search (ls : LineSearch K) (phi0 slope : K)
    (h : ∀ y, M.AllSome (IsValue V y) (valueAt y)) :
    M.AllSome (IsTrial V x s) (ls.search valueAt x s phi0 slope) := by
  rw [search]
  refine (all_firstTrial h _ _).bind M.allSome_none fun t ht => ?_
  exact all_shrink ls phi0 slope h _ _ t ht

end LineSearch

/-! ## Runs -/

/-- The parameters of an outcome, `n` of them, have its value. -/
structure IsOutcome (V : List K → K → Prop) (n : Nat) (o : Outcome K) : Prop where
  length_params : o.params.length = n
  value : IsValue V o.params o.value

/-- Nothing depends on the count. -/
theorem IsOutcome.congr {n : Nat} {o o' : Outcome K} (h : IsOutcome V n o)
    (hparams : o'.params = o.params) (hvalue : o'.value = o.value) : IsOutcome V n o' := by
  refine ⟨?_, ?_⟩
  · rw [hparams]
    exact h.length_params
  · rw [hparams, hvalue]
    exact h.value

namespace Newton

/-- The best point of a run has the best value. -/
def IsBest (V : List K → K → Prop) (best : Option (Best K)) : Prop :=
  ∀ b ∈ best, IsValue V [b.point] b.value

theorem IsBest.better {best : Option (Best K)} (h : IsBest V best) {x value : K}
    (hvalue : IsValue V [x] value) : IsBest V (better best x value) := by
  intro b hb
  cases best with
  | none =>
      cases hb
      exact hvalue
  | some b' =>
      rw [Newton.better] at hb
      split at hb
      · cases hb
        exact hvalue
      · cases hb
        exact h _ rfl

/-- A run that settles has a best point with the best value, if any. -/
def Stop.IsSound (V : List K → K → Prop) : Stop K → Prop
  | .settled best => IsBest V best
  | .failed => True

theorem all_steps (settings : RunSettings K) (ls : LineSearch K)
    (h : ∀ x, M.All (V x) (objective x)) (n : Nat) (x : K) (best : Option (Best K))
    (hbest : IsBest V best) :
    M.counting.All (Stop.IsSound V) (steps settings ls objective n x best) := by
  induction n generalizing x best with
  | zero => exact M.counting.all_pure hbest
  | succ n ih =>
      rw [steps]
      refine M.counting.all_bind (M.all_get fun _ => trivial) fun calls _ => ?_
      split
      · exact M.counting.all_pure hbest
      refine M.counting.all_bind (Minimize.all_valueAndGradient settings h [x]) fun r? hr => ?_
      split
      case h_2 => exact M.counting.all_pure trivial
      case h_1 value gradient =>
        split
        · exact M.counting.all_pure hbest
        have hbest : IsBest V (better best x value) := hbest.better (hr _ rfl).1
        dsimp only
        split
        · exact M.counting.all_pure hbest
        refine M.counting.all_bind (Minimize.all_valueAndGradient settings h _) fun above _ => ?_
        split
        case h_2 => exact M.counting.all_pure trivial
        refine M.counting.all_bind (Minimize.all_valueAndGradient settings h _) fun below _ => ?_
        split
        case h_2 => exact M.counting.all_pure trivial
        split
        · exact M.counting.all_pure hbest
        refine (LineSearch.all_search ls _ _ (Minimize.all_evaluateWithin settings h)).bind
          (M.counting.all_pure hbest) fun trial htrial => ?_
        -- the line through one number along another has a single coordinate
        have hpoint : trial.point = [trial.point.headD x] := by
          rw [htrial.point]
          rfl
        exact ih _ _ (hbest.better (hpoint ▸ htrial.value))

theorem all_minimize (settings : RunSettings K) (ls : LineSearch K)
    (h : ∀ x, M.All (V x) (objective x)) (start : K) :
    M.counting.AllSome (IsOutcome V 1) (minimize settings ls objective start) := by
  rw [minimize]
  refine M.counting.all_bind
    (all_steps settings ls h _ start none fun b hb => nomatch hb) fun stop hstop => ?_
  split
  case h_1 best =>
    refine M.counting.all_bind (M.all_get fun _ => trivial) fun calls _ => ?_
    exact M.counting.allSome_some ⟨rfl, hstop best rfl⟩
  case h_2 => exact M.counting.allSome_none

end Newton

namespace QuasiNewton

/-- The parts of a state belong together: the value is the one at the point, and the vectors and
the estimate have one size. -/
structure State.IsSound (V : List K → K → Prop) (n : Nat) (state : State K) : Prop where
  value : IsValue V state.point state.value
  point : state.point.length = n
  gradient : state.gradient.length = n
  inverse : state.inverse.length = n

theorem length_update {n : Nat} {inverse : List (List K)} {dx dg : List K}
    (hinverse : inverse.length = n) (hdx : dx.length = n) :
    (update inverse dx dg).length = n := by
  rw [update]
  dsimp only
  split
  · split
    · simp only [List.length_zipWith, List.length_zip, Vector.apply, List.length_map, hinverse, hdx,
        Nat.min_self]
    · exact hinverse
  · exact hinverse

theorem length_direction? {n : Nat} {state : State K} (hstate : state.IsSound V n) {s : List K}
    {slope : K} {inverse : List (List K)} (h : direction? state = some (s, slope, inverse)) :
    s.length = n ∧ inverse.length = n := by
  rw [direction?] at h
  dsimp only at h
  split at h
  · cases h
    exact ⟨by rw [Vector.negate, List.length_map, Vector.apply, List.length_map, hstate.inverse],
      hstate.inverse⟩
  · split at h
    · cases h
      exact ⟨by rw [Vector.negate, List.length_map, hstate.gradient],
        by rw [Vector.length_identity, hstate.gradient]⟩
    · cases h

theorem all_step (settings : RunSettings K) (ls : LineSearch K)
    (h : ∀ x, M.All (V x) (objective x)) {n : Nat} {state : State K} (hstate : state.IsSound V n) :
    M.counting.AllSome (State.IsSound V n) (step settings ls objective state) := by
  rw [step]
  refine M.counting.all_bind (M.all_get fun _ => trivial) fun calls _ => ?_
  split
  · exact M.counting.allSome_none
  dsimp only
  split
  · exact M.counting.allSome_none
  split
  · exact M.counting.allSome_none
  case h_2 s slope inverse hdirection =>
    obtain ⟨hs, hinverse⟩ := length_direction? hstate hdirection
    refine (LineSearch.all_search ls _ _ (Minimize.all_evaluateWithin settings h)).bind
      M.counting.allSome_none fun trial htrial => ?_
    have hpoint : trial.point.length = n := by
      rw [htrial.point, Vector.length_along, hstate.point, hs, Nat.min_self]
    have hdx : (Vector.sub trial.point state.point).length = n := by
      rw [Vector.length_sub, hpoint, hstate.point, Nat.min_self]
    refine (Minimize.all_valueAndGradient settings h trial.point).bind
      M.counting.allSome_none fun (value, gradient) ⟨hvalue, hgradient⟩ => ?_
    exact M.counting.allSome_some
      ⟨hvalue, hpoint, hgradient.trans hpoint, length_update hinverse hdx⟩

theorem all_steps (settings : RunSettings K) (ls : LineSearch K)
    (h : ∀ x, M.All (V x) (objective x)) {n : Nat} (k : Nat) {state : State K}
    (hstate : state.IsSound V n) :
    M.counting.All (State.IsSound V n) (steps settings ls objective k state) := by
  induction k generalizing state with
  | zero => exact M.counting.all_pure hstate
  | succ k ih =>
      rw [steps]
      exact (all_step settings ls h hstate).bind (M.counting.all_pure hstate)
        fun next hnext => ih hnext

theorem all_minimize (settings : RunSettings K) (ls : LineSearch K)
    (h : ∀ x, M.All (V x) (objective x)) (start : List K) :
    M.counting.AllSome (IsOutcome V start.length) (minimize settings ls objective start) := by
  rw [minimize]
  refine (Minimize.all_valueAndGradient settings h start).bind
    M.counting.allSome_none fun (value, gradient) ⟨hvalue, hgradient⟩ => ?_
  have hstart : State.IsSound V start.length
      ⟨start, value, gradient, Vector.identity start.length⟩ :=
    ⟨hvalue, rfl, hgradient, Vector.length_identity start.length⟩
  refine M.counting.all_bind (all_steps settings ls h _ hstart) fun state hstate => ?_
  refine M.counting.all_bind (M.all_get fun _ => trivial) fun calls _ => ?_
  exact M.counting.allSome_some ⟨hstate.point, hstate.value⟩

end QuasiNewton

/-- What a local run gives has as many parameters as its start, and a finite value that the
objective has there. -/
theorem Descent.all_localRun {objective : List Float → m Float} {V : List Float → Float → Prop}
    (d : Descent) (h : ∀ x, M.All (V x) (objective x)) (start : List Float) :
    M.AllSome (IsOutcome V start.length) (d.localRun objective start) := by
  unfold localRun
  refine M.all_bind (P := fun r => ∀ o ∈ r.1, IsOutcome V start.length o) ?_
    fun r hr => M.all_pure hr
  split
  · exact Newton.all_minimize _ _ h _ 0
  · exact QuasiNewton.all_minimize _ _ h _ 0

end SymbolicRegression
