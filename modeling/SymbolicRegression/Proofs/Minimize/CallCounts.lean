import SymbolicRegression.Proofs.Minimize.LocalRuns

/-!
# A local run counts every invocation of the objective

A local run keeps a count of its evaluations and compares it with a limit. The count belongs to the
run and not to the objective, so that it is right is a statement about two numbers: the count, and
how often the objective was invoked. An objective that counts its own invocations shows the second
one. `Accounts` says of a part of a run that both numbers advance alike, whatever it does and however
it ends, and it carries what is known of the result and of the count that is reached.

The limit is only looked at before a step and before each trial of a line search. So a line search
keeps every bound on the count that is not below the limit, while a gradient at a point with `n`
coordinates adds up to `2 * n + 1` to the count unasked. A step of a run starts below the limit, and
what its gradients add is all that it can exceed the limit by: the next step does not start.
-/

namespace SymbolicRegression

open Minimize

variable {K : Type} [Scalar K] {m : Type → Type} [Monad m] {M : Modality m}

/-- The objective together with a count of its invocations. -/
def Minimize.counted (objective : List K → m K) (x : List K) : Counting m K := do
  modify (· + 1)
  objective x

/-- What a computation gives that starts in the state `s`. -/
def Minimize.result {σ α : Type} (x : Counting (StateM σ) α) (s : σ) : α :=
  ((x.run 0).run s).1.1

/-- How often the objective has been invoked when a computation ends that starts in the state `s` and
after `before` invocations. -/
def Minimize.invocations {σ α : Type} (x : Counting (StateM σ) α) (before : Nat) (s : σ) : Nat :=
  ((x.run before).run s).1.2

namespace Modality

/-- With a state, a property of the results is asked for whatever the state is. -/
def stateful (σ : Type) : Modality (StateM σ) where
  All P x := ∀ s, P (x s).1
  all_pure h _ := h
  all_bind hx hf s := hf _ (hx s) _

variable {α β : Type} {P : α → Nat → Prop} {Q : β → Nat → Prop} {calls : Nat}

/-- From the count `calls` on, the invocations stay ahead of the count by the same number, and the
result has the property together with the count that is reached. -/
def Accounts (M : Modality m) (calls : Nat) (P : α → Nat → Prop) (x : Counting (Counting m) α) :
    Prop :=
  ∀ ahead, M.All (fun r => r.2 = ahead + r.1.2 ∧ P r.1.1 r.1.2) (x calls (ahead + calls))

theorem accounts_pure {a : α} (h : P a calls) : M.Accounts calls P (pure a) :=
  fun _ => M.all_pure ⟨rfl, h⟩

theorem Accounts.bind {x : Counting (Counting m) α} {f : α → Counting (Counting m) β}
    (hx : M.Accounts calls P x) (hf : ∀ a calls, P a calls → M.Accounts calls Q (f a)) :
    M.Accounts calls Q (x >>= f) := by
  intro ahead
  refine M.all_bind (hx ahead) ?_
  rintro ⟨⟨a, calls⟩, invoked⟩ ⟨hinvoked, ha⟩
  dsimp only at hinvoked ha ⊢
  rw [hinvoked]
  exact hf a calls ha ahead

theorem accounts_get_bind {f : Nat → Counting (Counting m) β} (h : M.Accounts calls Q (f calls)) :
    M.Accounts calls Q (get >>= f) :=
  Accounts.bind (P := fun a c => a = calls ∧ c = calls) (fun _ => M.all_pure ⟨rfl, rfl, rfl⟩)
    fun _ _ ⟨ha, hc⟩ => ha ▸ hc ▸ h

/-- Of a computation that may give nothing: the count is one of those in `B`, and whatever is given
has the property. -/
def Gives (B : Nat → Prop) (P : α → Nat → Prop) (a? : Option α) (calls : Nat) : Prop :=
  B calls ∧ ∀ a ∈ a?, P a calls

variable {B : Nat → Prop}

theorem accounts_none (h : B calls) : M.Accounts calls (Gives B P) (pure none) :=
  accounts_pure ⟨h, fun _ ha => nomatch ha⟩

theorem accounts_some {a : α} (h : B calls) (ha : P a calls) :
    M.Accounts calls (Gives B P) (pure (some a)) := by
  refine accounts_pure ⟨h, fun b hb => ?_⟩
  cases hb
  exact ha

/-- What follows may be nothing too, or goes on from what is given. -/
theorem Accounts.bind_gives {x : Counting (Counting m) (Option α)}
    {f : Option α → Counting (Counting m) β} (hx : M.Accounts calls (Gives B P) x)
    (hnone : ∀ calls, B calls → M.Accounts calls Q (f none))
    (hsome : ∀ a calls, B calls → P a calls → M.Accounts calls Q (f (some a))) :
    M.Accounts calls Q (x >>= f) := by
  refine hx.bind fun a? calls ⟨hcalls, ha⟩ => ?_
  cases a? with
  | none => exact hnone calls hcalls
  | some a => exact hsome a calls hcalls (ha a rfl)

end Modality

/-! ## Evaluations -/

namespace Minimize

/-- Where evaluations are limited, the count is at most `bound`. -/
def Within (settings : RunSettings K) (bound calls : Nat) : Prop :=
  settings.callLimit ≠ 0 → calls ≤ bound

omit [Scalar K] in
/-- Where another evaluation may be started, the count is below the limit. -/
theorem lt_callLimit_of_not_exhausted {settings : RunSettings K} {calls : Nat}
    (h : ¬exhausted settings calls = true) (hlimit : settings.callLimit ≠ 0) :
    calls < settings.callLimit := by
  rw [exhausted, Bool.and_eq_true, bne_iff_ne, decide_eq_true_eq, not_and] at h
  exact Nat.lt_of_not_le (h hlimit)

variable {objective : List K → m K} {calls : Nat}

/-- An evaluation invokes the objective once, and counts that. -/
theorem accounts_evaluate (h : ∀ x, M.All (fun _ => True) (objective x)) (x : List K)
    {P : Option K → Nat → Prop} (hP : ∀ v?, P v? (calls + 1)) :
    M.Accounts calls P (evaluate (counted objective) x) := by
  intro ahead
  refine M.all_bind (P := fun r => r = (((), calls + 1), ahead + calls)) (M.all_pure rfl) ?_
  rintro _ rfl
  refine M.all_bind (P := fun r => r.2 = ahead + (calls + 1) ∧ r.1.2 = calls + 1) ?_ ?_
  · refine M.all_bind (P := fun r => r.2 = ahead + (calls + 1)) ?_ fun r hr => M.all_pure ⟨hr, rfl⟩
    refine M.all_bind (P := fun r => r.2 = ahead + (calls + 1)) (M.all_pure rfl) fun r hr => ?_
    exact M.all_bind (h x) fun v _ => M.all_pure hr
  · intro r hr
    refine M.all_pure ⟨by rw [hr.1, hr.2], ?_⟩
    dsimp only
    rw [hr.2]
    exact hP _

/-- Within the limit an evaluation keeps every bound that is not below it. -/
theorem accounts_evaluateWithin (h : ∀ x, M.All (fun _ => True) (objective x))
    {settings : RunSettings K} {bound : Nat} (hbound : settings.callLimit ≤ bound) (x : List K)
    (hcalls : Within settings bound calls) :
    M.Accounts calls (fun _ c => Within settings bound c)
      (evaluateWithin settings (counted objective) x) := by
  rw [evaluateWithin]
  refine Modality.accounts_get_bind ?_
  split
  case isTrue => exact Modality.accounts_pure hcalls
  case isFalse hopen =>
    refine accounts_evaluate h x fun _ hlimit => ?_
    exact Nat.le_trans (lt_callLimit_of_not_exhausted hopen hlimit) hbound

theorem accounts_gradientFrom (h : ∀ x, M.All (fun _ => True) (objective x))
    (settings : RunSettings K) (before after : List K) :
    M.Accounts calls (fun _ c => c ≤ calls + 2 * after.length)
      (gradientFrom settings (counted objective) before after) := by
  induction after generalizing before calls with
  | nil => exact Modality.accounts_pure (Nat.le_refl _)
  | cons xi after ih =>
      rw [gradientFrom]
      refine (accounts_evaluate h _ (P := fun _ c => c = calls + 1) fun _ => rfl).bind
        fun up c₁ hup => ?_
      refine (accounts_evaluate h _ (P := fun _ c => c = c₁ + 1) fun _ => rfl).bind
        fun down c₂ hdown => ?_
      rw [List.length_cons]
      split
      · refine (ih _).bind fun others c₃ hothers => ?_
        exact Modality.accounts_pure (by omega)
      · exact Modality.accounts_pure (by omega)

theorem accounts_valueAndGradient (h : ∀ x, M.All (fun _ => True) (objective x))
    (settings : RunSettings K) (x : List K) :
    M.Accounts calls (fun _ c => c ≤ calls + (2 * x.length + 1))
      (valueAndGradient settings (counted objective) x) := by
  rw [valueAndGradient]
  refine (accounts_evaluate h x (P := fun _ c => c = calls + 1) fun _ => rfl).bind
    fun v? c₁ hv => ?_
  cases v? with
  | none => exact Modality.accounts_pure (by omega)
  | some v =>
      refine (accounts_gradientFrom h settings [] x).bind fun g? c₂ hg => ?_
      exact Modality.accounts_pure (by omega)

end Minimize

/-! ## Line searches -/

namespace LineSearch

variable {valueAt : List K → Counting (Counting m) (Option K)} {x s : List K}
  {B : Nat → Prop} {calls : Nat}

/-- A point on a line has no more coordinates than the point that the line starts from. -/
theorem length_along_le (alpha : K) : (Vector.along x alpha s).length ≤ x.length := by
  rw [Vector.length_along]
  exact Nat.min_le_left _ _

theorem accounts_firstTrial (h : ∀ y c, B c → M.Accounts c (fun _ c => B c) (valueAt y)) (n : Nat)
    (alpha : K) (hcalls : B calls) :
    M.Accounts calls (Modality.Gives B fun t _ => t.point.length ≤ x.length)
      (firstTrial valueAt x s n alpha) := by
  induction n generalizing alpha calls with
  | zero => exact Modality.accounts_none hcalls
  | succ n ih =>
      rw [firstTrial]
      refine (h _ _ hcalls).bind fun v? c hc => ?_
      split
      · exact Modality.accounts_some hc (length_along_le alpha)
      · exact ih _ hc

theorem accounts_shrink (ls : LineSearch K) (phi0 slope : K)
    (h : ∀ y c, B c → M.Accounts c (fun _ c => B c) (valueAt y)) (n : Nat)
    (before : Option (Trial K)) (t : Trial K) (ht : t.point.length ≤ x.length) (hcalls : B calls) :
    M.Accounts calls (Modality.Gives B fun t _ => t.point.length ≤ x.length)
      (ls.shrink valueAt x s phi0 slope n before t) := by
  induction n generalizing before t calls with
  | zero => exact Modality.accounts_none hcalls
  | succ n ih =>
      rw [shrink]
      split
      · exact Modality.accounts_some hcalls ht
      dsimp only
      split
      · exact Modality.accounts_none hcalls
      refine (h _ _ hcalls).bind fun v? c hc => ?_
      split
      · exact ih _ _ (length_along_le _) hc
      · exact Modality.accounts_none hc

/-- A line search keeps what each of its evaluations keeps, and the point that it gives has no more
coordinates than the point that it starts from. -/
theorem accounts_search (ls : LineSearch K) (phi0 slope : K)
    (h : ∀ y c, B c → M.Accounts c (fun _ c => B c) (valueAt y)) (hcalls : B calls) :
    M.Accounts calls (Modality.Gives B fun t _ => t.point.length ≤ x.length)
      (ls.search valueAt x s phi0 slope) := by
  rw [search]
  refine (accounts_firstTrial h _ _ hcalls).bind_gives (fun c hc => Modality.accounts_none hc)
    fun t c hc ht => ?_
  exact accounts_shrink ls phi0 slope h _ _ t ht hc

end LineSearch

/-! ## Runs -/

namespace Newton

variable {objective : List K → m K} {calls : Nat}

/-- A step starts below the limit, has nine evaluations in its three gradients, and its line search
stops at the limit. -/
theorem accounts_steps (h : ∀ x, M.All (fun _ => True) (objective x)) (settings : RunSettings K)
    (ls : LineSearch K) (n : Nat) (x : K) (best : Option (Best K))
    (hcalls : Within settings (settings.callLimit + 8) calls) :
    M.Accounts calls (fun _ c => Within settings (settings.callLimit + 8) c)
      (steps settings ls (counted objective) n x best) := by
  induction n generalizing x best calls with
  | zero => exact Modality.accounts_pure hcalls
  | succ n ih =>
      rw [steps]
      refine Modality.accounts_get_bind ?_
      split
      · exact Modality.accounts_pure hcalls
      case isFalse hopen =>
      have hwithin : ∀ c, c ≤ calls + 9 → Within settings (settings.callLimit + 8) c :=
        fun c hc hlimit => by
          have := lt_callLimit_of_not_exhausted hopen hlimit
          omega
      refine (accounts_valueAndGradient h settings [x]).bind fun r? c₁ hhere => ?_
      replace hhere : c₁ ≤ calls + 3 := hhere
      split
      case h_2 => exact Modality.accounts_pure (hwithin c₁ (by omega))
      split
      · exact Modality.accounts_pure (hwithin c₁ (by omega))
      dsimp only
      split
      · exact Modality.accounts_pure (hwithin c₁ (by omega))
      refine (accounts_valueAndGradient h settings _).bind fun above c₂ habove => ?_
      replace habove : c₂ ≤ c₁ + 3 := habove
      split
      case h_2 => exact Modality.accounts_pure (hwithin c₂ (by omega))
      refine (accounts_valueAndGradient h settings _).bind fun below c₃ hbelow => ?_
      replace hbelow : c₃ ≤ c₂ + 3 := hbelow
      split
      case h_2 => exact Modality.accounts_pure (hwithin c₃ (by omega))
      split
      · exact Modality.accounts_pure (hwithin c₃ (by omega))
      exact (LineSearch.accounts_search ls _ _
        (fun y c hc => Minimize.accounts_evaluateWithin h (Nat.le_add_right _ _) y hc)
        (hwithin c₃ (by omega))).bind_gives (fun c hc => Modality.accounts_pure hc)
        fun trial c hc _ => ih _ _ hc

/-- A run that gives something reports its count. -/
theorem accounts_minimize (h : ∀ x, M.All (fun _ => True) (objective x)) (settings : RunSettings K)
    (ls : LineSearch K) (start : K) :
    M.Accounts 0
      (Modality.Gives (Within settings (settings.callLimit + 8)) fun o calls => o.calls = calls)
      (minimize settings ls (counted objective) start) := by
  rw [minimize]
  refine (accounts_steps h settings ls _ _ _ fun _ => Nat.zero_le _).bind fun stop c hc => ?_
  split
  · exact Modality.accounts_get_bind (Modality.accounts_some hc rfl)
  · exact Modality.accounts_none hc

end Newton

namespace QuasiNewton

variable {objective : List K → m K} {n calls : Nat}

/-- A step starts below the limit, its line search stops there, and one gradient follows. -/
theorem accounts_step (h : ∀ x, M.All (fun _ => True) (objective x)) (settings : RunSettings K)
    (ls : LineSearch K) {state : State K} (hstate : state.point.length ≤ n)
    (hcalls : Within settings (settings.callLimit + (2 * n + 1)) calls) :
    M.Accounts calls
      (Modality.Gives (Within settings (settings.callLimit + (2 * n + 1)))
        fun next _ => next.point.length ≤ n)
      (step settings ls (counted objective) state) := by
  rw [step]
  refine Modality.accounts_get_bind ?_
  split
  · exact Modality.accounts_none hcalls
  case isFalse hopen =>
  dsimp only
  split
  · exact Modality.accounts_none hcalls
  split
  · exact Modality.accounts_none hcalls
  have hstart : Within settings settings.callLimit calls := fun hlimit =>
    Nat.le_of_lt (lt_callLimit_of_not_exhausted hopen hlimit)
  refine (LineSearch.accounts_search ls _ _
    (fun y c hc => Minimize.accounts_evaluateWithin h (Nat.le_refl _) y hc) hstart).bind_gives
    (fun c hc => ?_) fun trial c₁ hsearch htrial => ?_
  · exact Modality.accounts_none fun hlimit => Nat.le_add_right_of_le (hc hlimit)
  have hpoint : trial.point.length ≤ n := Nat.le_trans htrial hstate
  refine (accounts_valueAndGradient h settings trial.point).bind fun r? c₂ hgradient => ?_
  have hafter : Within settings (settings.callLimit + (2 * n + 1)) c₂ := fun hlimit => by
    have := hsearch hlimit
    omega
  cases r? with
  | none => exact Modality.accounts_none hafter
  | some r => exact Modality.accounts_some hafter hpoint

theorem accounts_steps (h : ∀ x, M.All (fun _ => True) (objective x)) (settings : RunSettings K)
    (ls : LineSearch K) (k : Nat) {state : State K} (hstate : state.point.length ≤ n)
    (hcalls : Within settings (settings.callLimit + (2 * n + 1)) calls) :
    M.Accounts calls (fun _ c => Within settings (settings.callLimit + (2 * n + 1)) c)
      (steps settings ls (counted objective) k state) := by
  induction k generalizing state calls with
  | zero => exact Modality.accounts_pure hcalls
  | succ k ih =>
      rw [steps]
      exact (accounts_step h settings ls hstate hcalls).bind_gives
        (fun c hc => Modality.accounts_pure hc) fun next c hc hnext => ih hnext hc

theorem accounts_minimize (h : ∀ x, M.All (fun _ => True) (objective x)) (settings : RunSettings K)
    (ls : LineSearch K) (start : List K) :
    M.Accounts 0
      (Modality.Gives (Within settings (settings.callLimit + (2 * start.length + 1)))
        fun o calls => o.calls = calls)
      (minimize settings ls (counted objective) start) := by
  rw [minimize]
  refine (accounts_valueAndGradient h settings start).bind fun r? c hgradient => ?_
  have hfirst : Within settings (settings.callLimit + (2 * start.length + 1)) c := fun _ => by
    omega
  cases r? with
  | none => exact Modality.accounts_none hfirst
  | some r =>
      refine (accounts_steps h settings ls _ (Nat.le_refl _) hfirst).bind fun state c hc => ?_
      exact Modality.accounts_get_bind (Modality.accounts_some hc rfl)

end QuasiNewton

namespace Descent

/-- By how much a local run may exceed its limit: by one gradient, or, for one parameter, by three
gradients less the evaluation that has to be left for a step to start. -/
def overshoot (start : List Float) : Nat :=
  if start.length = 1 then 8 else 2 * start.length + 1

/-- A local run exceeds its limit by the overshoot at most, and what it reports as its evaluations
is how often it has invoked the objective. -/
theorem all_localRun_counted (d : Descent) {objective : List Float → m Float}
    (h : ∀ x, M.All (fun _ => True) (objective x)) (start : List Float) (before : Nat) :
    M.All
      (fun r => ∃ calls, r.2 = before + calls ∧
        (d.callLimit ≠ 0 → calls ≤ d.callLimit + overshoot start) ∧ ∀ o ∈ r.1, o.calls = calls)
      (d.localRun (counted objective) start before) := by
  unfold localRun
  refine M.all_bind
    (P := fun r => r.2 = before + r.1.2 ∧
      Modality.Gives (Within d.runSettings (d.callLimit + overshoot start))
        (fun o calls => o.calls = calls) r.1.1 r.1.2) ?_ ?_
  · split
    case h_1 x => exact Newton.accounts_minimize h d.runSettings lineSearch x before
    case h_2 hmany =>
      have hlength : start.length ≠ 1 := fun hone => by
        obtain ⟨x, rfl⟩ := List.length_eq_one_iff.1 hone
        exact hmany x rfl
      rw [overshoot, if_neg hlength]
      exact QuasiNewton.accounts_minimize h d.runSettings lineSearch start before
  · rintro ⟨⟨o?, calls⟩, invoked⟩ ⟨hinvoked, hwithin, hcalls⟩
    exact M.all_pure ⟨calls, hinvoked, hwithin, hcalls⟩

/-- With a limit, a local run invokes the objective at most as often as the limit says and once for
each evaluation of the gradients of one step: one gradient, or, for one parameter, three gradients
less the evaluation that the step needs to start. Its line searches do not add to that: where
`calls` evaluations have been made, a line search ends at the limit, or at once if that is passed.
The objective may have a state, and its values need not be finite. -/
theorem localRun_within_limit {σ : Type} (d : Descent) (objective : List Float → StateM σ Float)
    (start : List Float) (s : σ) (hlimit : 1 ≤ d.callLimit) :
    invocations (d.localRun (counted objective) start) 0 s ≤
        d.callLimit + (if start.length = 1 then 8 else 2 * start.length + 1) ∧
      ∀ (point direction : List Float) (value slope : Float) (calls : Nat) (s : σ),
        let search := lineSearch.search (evaluateWithin d.runSettings (counted objective)) point
          direction value slope
        invocations (search.run calls) calls s ≤ max calls d.callLimit := by
  have hobjective : ∀ x, (Modality.stateful σ).All (fun _ => True) (objective x) :=
    fun _ _ => trivial
  have hlimited : d.runSettings.callLimit ≠ 0 := Nat.ne_of_gt hlimit
  refine ⟨?_, fun point direction value slope calls s => ?_⟩
  · obtain ⟨invoked, hinvoked, hwithin, -⟩ := d.all_localRun_counted hobjective start 0 s
    rw [Nat.zero_add] at hinvoked
    exact Nat.le_trans (Nat.le_of_eq hinvoked) (hwithin hlimited)
  · have hbound : d.runSettings.callLimit ≤ max calls d.callLimit := Nat.le_max_right calls _
    have hsearch := LineSearch.accounts_search (x := point) (s := direction) lineSearch value slope
      (fun y c hc => accounts_evaluateWithin hobjective hbound y hc)
      fun _ => Nat.le_max_left calls d.callLimit
    obtain ⟨hinvoked, hwithin, -⟩ := hsearch 0 s
    rw [Nat.zero_add, Nat.zero_add] at hinvoked
    rw [Nat.zero_add] at hwithin
    exact Nat.le_trans (Nat.le_of_eq hinvoked) (hwithin hlimited)

/-- Half the squared distance from the origin, which a full step along the gradient reaches. -/
def bowl (x : List Float) : StateM Unit Float :=
  return Vector.dot x x / 2

/-- With one parameter three gradients are started within a limit of one, and with two a gradient
follows a line search that has used up a limit of six. -/
theorem localRun_within_limit_bowl :
    invocations (localRun { callLimit := 1 } (counted bowl) [1]) 0 () = 1 + 8 ∧
      invocations (localRun { callLimit := 6 } (counted bowl) [1, 1]) 0 () = 6 + 5 ∧
      1 ≤ ({ callLimit := 6 } : Descent).callLimit ∧
      invocations (localRun { callLimit := 6 } (counted bowl) [1, 1]) 0 () ≤ 6 + 5 :=
  ⟨by decide +kernel, by decide +kernel, by decide,
    (localRun_within_limit { callLimit := 6 } bowl [1, 1] () (by decide)).1⟩

end Descent

end SymbolicRegression
