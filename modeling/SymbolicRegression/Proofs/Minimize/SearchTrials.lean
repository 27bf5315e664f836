import SymbolicRegression.Proofs.Doubles.Products
import SymbolicRegression.Proofs.Minimize.CallCounts

/-!
# What a line search has tried

A line search evaluates a trial function that may fail and may change a state, so two things that are
said of it cannot be read off its result: how often it calls the function, and that the trial it gives
is the last call. A record of the calls, kept beside the computation, shows both, and without the
record the search is what it was.

The clamp of a shrunk step asserts that the ends of its range are in order. `guardedSearch` is the
search with that assertion. No assertion fails where each step is finite and positive: the search
tests that itself while it shrinks a step, but not while it halves the first one, so there it is a
fact about the 53 numbers that the halving can reach. That the ends are in order is then a fact about
products that are rounded, however small the step is.
-/

namespace SymbolicRegression

section

variable {K : Type} {m : Type → Type} [Monad m] {α β : Type}

/-! ## Records -/

namespace LineSearch

/-- A call of a trial function, and the answer. -/
structure TrialCall (K : Type) where
  point : List K
  answer : Option K

/-- Computations that keep a record of calls, the latest one last. -/
abbrev Recording (K : Type) (m : Type → Type) := StateT (List (TrialCall K)) m

/-- The trial function together with a record of its calls. -/
def recording (valueAt : List K → m (Option K)) (y : List K) : Recording K m (Option K) :=
  fun calls => do
    let answer ← valueAt y
    return (answer, calls ++ [⟨y, answer⟩])

/-- Where there is room for one call more, a call leaves room for the rest. -/
theorem length_call_le {calls : List (TrialCall K)} {call : TrialCall K} {n bound : Nat}
    (h : calls.length + (n + 1) ≤ bound) : (calls ++ [call]).length + n ≤ bound := by
  rw [List.length_append, List.length_singleton]
  omega

/-- But for the record, the first computation is the second one. -/
def Forgets (x : Recording K m α) (y : m α) : Prop :=
  ∀ calls, Prod.fst <$> x calls = y

section Forgets

variable [LawfulMonad m]

theorem forgets_pure (a : α) : Forgets (K := K) (pure a) (pure a : m α) :=
  fun _ => map_pure _ _

theorem Forgets.bind {x : Recording K m α} {y : m α} {f : α → Recording K m β} {g : α → m β}
    (h : Forgets x y) (hf : ∀ a, Forgets (f a) (g a)) : Forgets (x >>= f) (y >>= g) := by
  intro calls
  show Prod.fst <$> (x calls >>= fun r => f r.1 r.2) = _
  rw [← h calls, map_bind, bind_map_left]
  exact bind_congr fun r => hf r.1 r.2

theorem forgets_recording (valueAt : List K → m (Option K)) (y : List K) :
    Forgets (recording valueAt y) (valueAt y) := by
  intro calls
  rw [recording, map_bind]
  simp only [map_pure, bind_pure]

end Forgets

end LineSearch

namespace Modality

open LineSearch

variable {M : Modality m} {calls : List (TrialCall K)} {P : α → List (TrialCall K) → Prop}
  {Q : β → List (TrialCall K) → Prop}

/-- After the record `calls`, the result and the record that is reached have the property. -/
def Records (M : Modality m) (calls : List (TrialCall K)) (P : α → List (TrialCall K) → Prop)
    (x : Recording K m α) : Prop :=
  M.All (fun r => P r.1 r.2) (x calls)

theorem records_pure {a : α} (h : P a calls) : M.Records calls P (pure a) :=
  M.all_pure h

theorem Records.bind {x : Recording K m α} {f : α → Recording K m β} (hx : M.Records calls P x)
    (hf : ∀ a calls, P a calls → M.Records calls Q (f a)) : M.Records calls Q (x >>= f) :=
  M.all_bind hx fun r hr => hf r.1 r.2 hr

/-- What follows a call goes on from the record with that call. -/
theorem records_recording_bind {valueAt : List K → m (Option K)} {y : List K}
    {f : Option K → Recording K m β} (h : M.All (fun _ => True) (valueAt y))
    (hf : ∀ answer, M.Records (calls ++ [⟨y, answer⟩]) Q (f answer)) :
    M.Records calls Q (recording valueAt y >>= f) := by
  refine Records.bind (P := fun answer c => c = calls ++ [⟨y, answer⟩]) ?_ ?_
  · exact M.all_bind h fun _ _ => M.all_pure rfl
  · rintro answer _ rfl
    exact hf answer

end Modality

end

open Scalar

variable {K : Type} [Scalar K] {m : Type → Type} [Monad m]

/-! ## Clamped steps -/

namespace LineSearch

/-- The next step, with what the clamp asserts: the ends of its range are in order. -/
def guardedStep (ls : LineSearch K) (phi0 slope : K) (before : Option (Trial K)) (t : Trial K) :
    ExceptT (K × K) m K :=
  if le (ls.shrinkMost * t.step) (ls.shrinkLeast * t.step) then
    return ls.nextStep phi0 slope before t
  else throw (ls.shrinkMost * t.step, ls.shrinkLeast * t.step)

/-- `shrink` with that assertion. -/
def guardedShrink (ls : LineSearch K) (valueAt : List K → m (Option K)) (x s : List K)
    (phi0 slope : K) : Nat → Option (Trial K) → Trial K → ExceptT (K × K) m (Option (Trial K))
  | 0, _, _ => return none
  | n + 1, before, t => do
    if ls.accepts phi0 slope t then return some t
    else
      let alpha ← ls.guardedStep phi0 slope before t
      if !isFinite alpha || le alpha zero then return none
      else
        let point := Vector.along x alpha s
        match (← ExceptT.lift (valueAt point)).bind finite? with
        | some value => guardedShrink ls valueAt x s phi0 slope n (some t) ⟨alpha, value, point⟩
        | none => return none

/-- `search` with that assertion. -/
def guardedSearch (ls : LineSearch K) (valueAt : List K → m (Option K)) (x s : List K)
    (phi0 slope : K) : ExceptT (K × K) m (Option (Trial K)) := do
  match ← ExceptT.lift (firstTrial valueAt x s ls.halvings one) with
  | none => return none
  | some t => guardedShrink ls valueAt x s phi0 slope ls.trials none t

/-- A step that may be clamped. -/
structure IsStep (alpha : K) : Prop where
  isFinite : Scalar.isFinite alpha = true
  positive : le alpha zero = false

theorem isStep_of_not {alpha : K} (h : ¬(!Scalar.isFinite alpha || le alpha zero) = true) :
    IsStep alpha := by
  rw [Bool.or_eq_true, Bool.not_eq_true', not_or, Bool.not_eq_false, Bool.not_eq_true] at h
  exact ⟨h.1, h.2⟩

variable {valueAt : List K → m (Option K)} {x s : List K}

/-- What follows the first trial meets halved steps only. -/
theorem firstTrial_bind_congr [LawfulMonad m] {β : Type} {f g : Option (Trial K) → m β}
    (hnone : f none = g none) {n : Nat} {alpha : K}
    (hsome : ∀ k < n, ∀ t : Trial K, t.step = (· / two)^[k] alpha → f (some t) = g (some t)) :
    firstTrial valueAt x s n alpha >>= f = firstTrial valueAt x s n alpha >>= g := by
  induction n generalizing alpha with
  | zero => simpa only [firstTrial, pure_bind] using hnone
  | succ n ih =>
      rw [firstTrial, bind_assoc, bind_assoc]
      refine bind_congr fun v? => ?_
      split
      · simpa only [pure_bind] using hsome 0 (Nat.succ_pos n) _ rfl
      · exact ih fun k hk t ht => hsome (k + 1) (Nat.succ_lt_succ hk) t ht

section Guards

variable [LawfulMonad m] (ls : LineSearch K) (phi0 slope : K)
  (hbounds : ∀ alpha, IsStep alpha → le (ls.shrinkMost * alpha) (ls.shrinkLeast * alpha) = true)
include hbounds

theorem run_guardedShrink (n : Nat) (before : Option (Trial K)) (t : Trial K)
    (ht : IsStep t.step) :
    (ls.guardedShrink valueAt x s phi0 slope n before t).run =
      Except.ok <$> ls.shrink valueAt x s phi0 slope n before t := by
  induction n generalizing before t with
  | zero => exact (map_pure Except.ok _).symm
  | succ n ih =>
      rw [guardedShrink, shrink]
      split
      · exact (map_pure Except.ok _).symm
      rw [guardedStep, if_pos (hbounds _ ht), pure_bind]
      dsimp only
      split
      · exact (map_pure Except.ok _).symm
      case isFalse hstep =>
      rw [map_bind]
      refine (ExceptT.run_bind_lift _ _).trans (bind_congr fun v? => ?_)
      cases v?.bind finite? with
      | none => exact (map_pure Except.ok _).symm
      | some value => exact ih _ _ (isStep_of_not hstep)

/-- Where the halved steps are finite and positive, no assertion of a search fails. -/
theorem run_guardedSearch (hhalvings : ∀ k < ls.halvings, IsStep ((· / two)^[k] (one : K))) :
    (ls.guardedSearch valueAt x s phi0 slope).run =
      Except.ok <$> ls.search valueAt x s phi0 slope := by
  rw [guardedSearch, search, map_bind]
  refine (ExceptT.run_bind_lift _ _).trans (firstTrial_bind_congr ?_ ?_)
  · exact (map_pure Except.ok _).symm
  · intro k hk t ht
    exact run_guardedShrink ls phi0 slope hbounds _ _ t (ht ▸ hhalvings k hk)

end Guards

end LineSearch

/-! ## Trials -/

namespace LineSearch

variable {M : Modality m} {valueAt : List K → m (Option K)} {x s : List K}

section Forgets

variable [LawfulMonad m]

theorem forgets_firstTrial (n : Nat) (alpha : K) :
    Forgets (firstTrial (recording valueAt) x s n alpha) (firstTrial valueAt x s n alpha) := by
  induction n generalizing alpha with
  | zero => exact forgets_pure none
  | succ n ih =>
      rw [firstTrial, firstTrial]
      refine (forgets_recording valueAt _).bind fun v? => ?_
      split
      · exact forgets_pure _
      · exact ih _

theorem forgets_shrink (ls : LineSearch K) (phi0 slope : K) (n : Nat) (before : Option (Trial K))
    (t : Trial K) :
    Forgets (ls.shrink (recording valueAt) x s phi0 slope n before t)
      (ls.shrink valueAt x s phi0 slope n before t) := by
  induction n generalizing before t with
  | zero => exact forgets_pure none
  | succ n ih =>
      rw [shrink, shrink]
      split
      · exact forgets_pure _
      dsimp only
      split
      · exact forgets_pure _
      refine (forgets_recording valueAt _).bind fun v? => ?_
      split
      · exact ih _ _
      · exact forgets_pure _

/-- But for the record, a search with recorded calls is the search. -/
theorem forgets_search (ls : LineSearch K) (phi0 slope : K) :
    Forgets (ls.search (recording valueAt) x s phi0 slope) (ls.search valueAt x s phi0 slope) := by
  rw [search, search]
  refine (forgets_firstTrial _ _).bind fun t? => ?_
  split
  · exact forgets_pure none
  · exact forgets_shrink ls phi0 slope _ _ _

end Forgets

/-- The last call was made for the point, and the answer was the value. -/
def LastCall (calls : List (TrialCall K)) (y : List K) (v : K) : Prop :=
  calls.getLast? = some ⟨y, some v⟩

/-- A trial with the property that is the last call of the record. -/
structure IsLatest (x s : List K) (P : Trial K → Prop) (calls : List (TrialCall K)) (t : Trial K) :
    Prop where
  trial : IsTrial (LastCall calls) x s t
  property : P t

/-- There are at most `bound` calls, and what is given is the latest trial. -/
def Tried (x s : List K) (P : Trial K → Prop) (bound : Nat) (t? : Option (Trial K))
    (calls : List (TrialCall K)) : Prop :=
  calls.length ≤ bound ∧ ∀ t ∈ t?, IsLatest x s P calls t

variable {P : Trial K → Prop} {calls : List (TrialCall K)} {bound : Nat}

theorem tried_none (h : calls.length ≤ bound) : Tried x s P bound none calls :=
  ⟨h, fun _ ht => nomatch ht⟩

theorem tried_some {t : Trial K} (h : calls.length ≤ bound) (ht : IsLatest x s P calls t) :
    Tried x s P bound (some t) calls := by
  refine ⟨h, fun t' ht' => ?_⟩
  cases ht'
  exact ht

/-- An answer that is finite makes its call a trial. -/
theorem isTrial_of_answer {alpha v : K} {answer : Option K} (h : answer.bind finite? = some v) :
    IsTrial (LastCall (calls ++ [⟨Vector.along x alpha s, answer⟩])) x s
      ⟨alpha, v, Vector.along x alpha s⟩ := by
  obtain ⟨w, rfl, hw⟩ := Option.bind_eq_some_iff.1 h
  obtain ⟨hfinite, rfl⟩ := Scalar.mem_finite?.1 hw
  exact ⟨rfl, List.getLast?_concat, hfinite⟩

theorem records_firstTrial (h : ∀ y, M.All (fun _ => True) (valueAt y)) (n : Nat) (alpha : K)
    (hcalls : calls.length + n ≤ bound) :
    M.Records calls (Tried x s (fun _ => True) bound)
      (firstTrial (recording valueAt) x s n alpha) := by
  induction n generalizing alpha calls with
  | zero => exact Modality.records_pure (tried_none hcalls)
  | succ n ih =>
      rw [firstTrial]
      refine Modality.records_recording_bind (h _) fun answer => ?_
      split
      case h_1 v hbind =>
        refine Modality.records_pure (tried_some ?_ ⟨isTrial_of_answer hbind, trivial⟩)
        exact Nat.le_of_add_right_le (length_call_le hcalls)
      case h_2 => exact ih _ (length_call_le hcalls)

theorem records_shrink (ls : LineSearch K) (phi0 slope : K)
    (h : ∀ y, M.All (fun _ => True) (valueAt y)) (n : Nat) (before : Option (Trial K))
    (t : Trial K) (ht : IsTrial (LastCall calls) x s t)
    (hcalls : calls.length + n ≤ bound) :
    M.Records calls (Tried x s (fun t => ls.accepts phi0 slope t = true) bound)
      (ls.shrink (recording valueAt) x s phi0 slope n before t) := by
  induction n generalizing before t calls with
  | zero => exact Modality.records_pure (tried_none hcalls)
  | succ n ih =>
      have hlength : calls.length ≤ bound := Nat.le_of_add_right_le hcalls
      rw [shrink]
      split
      case isTrue haccepts => exact Modality.records_pure (tried_some hlength ⟨ht, haccepts⟩)
      dsimp only
      split
      · exact Modality.records_pure (tried_none hlength)
      refine Modality.records_recording_bind (h _) fun answer => ?_
      split
      case h_1 v hbind => exact ih _ _ (isTrial_of_answer hbind) (length_call_le hcalls)
      case h_2 =>
        exact Modality.records_pure (tried_none (Nat.le_of_add_right_le (length_call_le hcalls)))

/-- A search makes no more calls than it has halvings and trials, and what it gives is its last call
and is accepted. -/
theorem records_search (ls : LineSearch K) (phi0 slope : K)
    (h : ∀ y, M.All (fun _ => True) (valueAt y)) :
    M.Records [] (Tried x s (fun t => ls.accepts phi0 slope t = true) (ls.halvings + ls.trials))
      (ls.search (recording valueAt) x s phi0 slope) := by
  rw [search]
  refine (records_firstTrial h ls.halvings one (Nat.le_of_eq (Nat.zero_add _))).bind
    fun t? calls htried => ?_
  split
  · exact Modality.records_pure (tried_none (Nat.le_add_right_of_le htried.1))
  · exact records_shrink ls phi0 slope h _ _ _ (htried.2 _ rfl).trial
      (Nat.add_le_add_right htried.1 _)

end LineSearch

/-! ## Doubles -/

namespace Descent

open LineSearch

/-- The ends of the range that a positive step is clamped to are in order. -/
theorem clampRange_ordered (alpha : Float) (h : IsStep alpha) :
    le (lineSearch.shrinkMost * alpha) (lineSearch.shrinkLeast * alpha) = true := by
  obtain ⟨b, hb, hs, hmantissa⟩ :=
    Binary.exists_of_pos h.isFinite (of_decide_eq_false h.positive)
  have htenth : Binary.ofFloat? 0.1 = some ⟨false, 7205759403792794, -56⟩ := by decide +kernel
  have hhalf : Binary.ofFloat? 0.5 = some ⟨false, 2 ^ 52, -53⟩ := by decide +kernel
  refine decide_eq_true (Binary.mul_le_mul htenth hhalf hb (by norm_num) (by norm_num) hmantissa
    rfl rfl hs ?_ ?_)
  · rw [Binary.magnitude, Binary.magnitude]
    norm_num
  · have hhalf : (⟨false, 2 ^ 52, -53⟩ : Binary).magnitude = 1 / 2 := by
      rw [Binary.magnitude]
      norm_num
    rw [hhalf, one_div_mul_eq_div, div_lt_iff₀ two_pos]
    exact (Binary.magnitude_lt (Binary.ofFloat?_eq_some hb).1).trans_eq
      (zpow_add_one₀ two_ne_zero 1023)

/-- The 53 steps that halving can reach are finite and positive. -/
theorem isStep_halved (k : Nat) (hk : k < lineSearch.halvings) :
    IsStep ((· / two)^[k] (one : Float)) := by
  have hall : ∀ k < 53, Scalar.isFinite ((· / two)^[k] (one : Float)) = true ∧
      le ((· / two)^[k] (one : Float)) zero = false := by decide +kernel
  exact ⟨(hall k hk).1, (hall k hk).2⟩

/-- Whatever the trial function answers, and whatever it does to its state, a line search makes at
most 53 calls for a first trial and 1000 while it shrinks the step, and no clamp fails: the search
with the assertions and the record ends in the same state and gives the same. A trial that is given
is the point that lies as far along the line as its step says, its value is finite and is the answer
of the last call, which was made for that very point, and the decrease is sufficient for the
step. -/
theorem lineSearch_trials {σ : Type} (valueAt : List Float → StateM σ (Option Float))
    (x s : List Float) (phi0 slope : Float) (start : σ) :
    ∃ (found : Option (Trial Float)) (calls : List (TrialCall Float)) (final : σ),
      (lineSearch.search valueAt x s phi0 slope).run start = (found, final) ∧
      ((lineSearch.guardedSearch (recording valueAt) x s phi0 slope).run.run []).run start =
        ((.ok found, calls), final) ∧
      calls.length ≤ 53 + 1000 ∧
      ∀ t ∈ found,
        t.point = List.zipWith (fun xi si => xi + t.step * si) x s ∧
        calls.getLast? = some ⟨t.point, some t.value⟩ ∧
        t.value.isFinite = true ∧
        t.value ≤ phi0 + 1e-4 * t.step * slope := by
  have hplain : Prod.fst <$> lineSearch.search (recording valueAt) x s phi0 slope [] =
      lineSearch.search valueAt x s phi0 slope := forgets_search lineSearch phi0 slope []
  have hguarded : (lineSearch.guardedSearch (recording valueAt) x s phi0 slope).run =
      Except.ok <$> lineSearch.search (recording valueAt) x s phi0 slope :=
    run_guardedSearch lineSearch phi0 slope clampRange_ordered isStep_halved
  have hrecords : (Modality.stateful σ).Records []
      (Tried x s (fun t => lineSearch.accepts phi0 slope t = true) (53 + 1000))
      (lineSearch.search (recording valueAt) x s phi0 slope) :=
    records_search lineSearch phi0 slope fun _ _ => trivial
  generalize lineSearch.search (recording valueAt) x s phi0 slope = search at *
  obtain ⟨hlength, hlatest⟩ := hrecords start
  refine ⟨(search [] start).1.1, (search [] start).1.2, (search [] start).2,
    (congrFun hplain start).symm, congrFun (congrFun hguarded []) start, hlength, fun t ht => ?_⟩
  obtain ⟨⟨hpoint, hvalue⟩, haccepts⟩ := hlatest t ht
  exact ⟨hpoint, hvalue.value, hvalue.isFinite, of_decide_eq_true haccepts⟩

deriving instance DecidableEq for Trial

/-- A parabola with its minimum at a half that fails beyond one. The state counts the calls. -/
def parabolaUpToOne (y : List Float) : StateM Nat (Option Float) := fun calls =>
  (match y with
    | [a] => if 1 < a then none else some ((a - 0.5) * (a - 0.5))
    | _ => none, calls + 1)

/-- Two calls fail, the third one does not decrease, and the fourth one meets the minimum. -/
theorem lineSearch_trials_parabolaUpToOne :
    ∃ calls : List (TrialCall Float),
      ((lineSearch.guardedSearch (recording parabolaUpToOne) [0] [4] 0.25 (-4)).run.run []).run 0 =
        ((.ok (some ⟨0.125, 0, [0.5]⟩), calls), 4) ∧
      calls.length ≤ 53 + 1000 ∧
      calls.getLast? = some ⟨[0.5], some 0⟩ ∧
      (0 : Float) ≤ 0.25 + 1e-4 * 0.125 * (-4) := by
  obtain ⟨found, calls, final, hplain, hguarded, hlength, htrial⟩ :=
    lineSearch_trials parabolaUpToOne [0] [4] 0.25 (-4) 0
  have hrun : Id.run ((lineSearch.search parabolaUpToOne [0] [4] 0.25 (-4)).run 0) =
      (some ⟨0.125, 0, [0.5]⟩, 4) := by decide +kernel
  cases hplain.symm.trans hrun
  obtain ⟨-, hlast, -, hdecrease⟩ := htrial _ rfl
  exact ⟨calls, hguarded, hlength, hlast, hdecrease⟩

end Descent

end SymbolicRegression
