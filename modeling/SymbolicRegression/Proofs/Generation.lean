import Mathlib.Data.List.Forall2
import SymbolicRegression.Generation

/-!
# What generation can produce

A generator is run on a stream and a supply of names, and it may fail or never end; none of that
matters to what its trees look like. `Grown` says it without any of it: which trees can fill an
obligation of a given type. Each constructor is one way in which an obligation is closed, so that a
fact about generated trees is one induction with a case for each, and the generator need not be
opened for it again.

`Draw.Yields` is how the proof about the generator goes. It speaks of every outcome of a draw at
once, and keeps an invariant of the supply along the way, since the names that a draw mints depend on
the stem that the supply was started with.
-/

namespace SymbolicRegression

namespace Draw

variable {α β : Type} {I : Supply → Prop}

/-- Whatever comes of the draw, the supply keeps the invariant, and a result has the property. -/
def Yields (I : Supply → Prop) (P : α → Prop) (x : Draw α) : Prop :=
  ∀ s outcome s', I s.supply → x s = some (outcome, s') →
    I s'.supply ∧ ∀ a, outcome = .ok a → P a

theorem yields_always (x : Draw α) : Yields (fun _ => True) (fun _ => True) x :=
  fun _ _ _ _ _ => ⟨trivial, fun _ _ => trivial⟩

theorem yields_pure {P : α → Prop} {a : α} (h : P a) : Yields I P (pure a) := by
  intro s outcome s' hI hrun
  cases hrun
  refine ⟨hI, ?_⟩
  intro b hb
  cases hb
  exact h

theorem yields_throw {P : α → Prop} {e : GenerationError} : Yields I P (throw e) := by
  intro s outcome s' hI hrun
  cases hrun
  refine ⟨hI, ?_⟩
  intro b hb
  cases hb

theorem yields_endless {P : α → Prop} : Yields I P endless := by
  intro s outcome s' _ hrun
  cases hrun

/-- A draw goes on from the sources that its first part has left, unless that part failed. -/
theorem bind_apply (x : Draw α) (f : α → Draw β) (s : Sources) :
    (x >>= f) s = (x s).bind fun r =>
      match r.1 with
      | .ok a => f a r.2
      | .error e => some (.error e, r.2) := by
  change Option.bind (x s) _ = _
  congr 1
  funext r
  obtain ⟨outcome, s'⟩ := r
  cases outcome with
  | ok a => rfl
  | error e => rfl

/-- A draw from the stream is followed by what goes on from the rest of it. -/
theorem random_bind_apply (f : Stream → α × Stream) (g : α → Draw β) (s : Sources) :
    (random f >>= g) s = g (f s.stream).1 { s with stream := (f s.stream).2 } := by
  rw [bind_apply]
  rfl

theorem Yields.bind {P : α → Prop} {Q : β → Prop} {x : Draw α} {f : α → Draw β}
    (hx : Yields I P x) (hf : ∀ a, P a → Yields I Q (f a)) : Yields I Q (x >>= f) := by
  intro s outcome s' hI hrun
  rw [bind_apply] at hrun
  cases hxs : x s with
  | none => rw [hxs] at hrun; cases hrun
  | some r =>
      obtain ⟨first, s₁⟩ := r
      obtain ⟨hI₁, hP⟩ := hx s first s₁ hI hxs
      rw [hxs, Option.bind_some] at hrun
      cases first with
      | error e =>
          cases hrun
          refine ⟨hI₁, ?_⟩
          intro b hb
          cases hb
      | ok a => exact hf a (hP a rfl) s₁ outcome s' hI₁ hrun

theorem Yields.mono {P Q : α → Prop} {x : Draw α} (h : Yields I P x) (hPQ : ∀ a, P a → Q a) :
    Yields I Q x := by
  intro s outcome s' hI hrun
  obtain ⟨hI', hP⟩ := h s outcome s' hI hrun
  exact ⟨hI', fun a ha => hPQ a (hP a ha)⟩

/-- The random stream is no part of the supply. -/
theorem yields_random {P : α → Prop} {f : Stream → α × Stream} (h : ∀ s, P (f s).1) :
    Yields I P (random f) := by
  intro s outcome s' hI hrun
  cases hrun
  refine ⟨hI, ?_⟩
  intro a ha
  cases ha
  exact h s.stream

theorem yields_supplied {P : α → Prop} {f : Supply → α × Supply}
    (h : ∀ supply, I supply → P (f supply).1 ∧ I (f supply).2) : Yields I P (supplied f) := by
  intro s outcome s' hI hrun
  cases hrun
  obtain ⟨hP, hI'⟩ := h s.supply hI
  refine ⟨hI', ?_⟩
  intro a ha
  cases ha
  exact hP

theorem Yields.mapM {P : α → β → Prop} {f : α → Draw β} :
    ∀ {xs : List α}, (∀ x ∈ xs, Yields I (P x) (f x)) →
      Yields I (fun ys => List.Forall₂ P xs ys) (xs.mapM f)
  | [], _ => by
      rw [List.mapM_nil]
      exact yields_pure .nil
  | x :: xs, h => by
      rw [List.mapM_cons]
      refine .bind (h x List.mem_cons_self) fun y hy => ?_
      refine .bind (.mapM fun z hz => h z (List.mem_cons_of_mem x hz)) fun ys hys => ?_
      exact yields_pure (.cons hy hys)

theorem Yields.forall_mem_mapM {Q : β → Prop} {f : α → Draw β} {xs : List α}
    (h : ∀ x ∈ xs, Yields I Q (f x)) : Yields I (fun ys => ∀ y ∈ ys, Q y) (xs.mapM f) := by
  refine (Yields.mapM (P := fun _ => Q) h).mono fun ys hys => ?_
  clear h
  induction hys with
  | nil => exact List.forall_mem_nil _
  | cons hy _ ih => exact List.forall_mem_cons.mpr ⟨hy, ih⟩

end Draw

/-! ## Grown trees -/

/-- The trees that can fill an obligation of a type. A fresh constant has the stem of constants and
any positive number. -/
inductive Grown (r : Registry) : ExprType → Tree → Prop where
  | constant (n : Nat) : Grown r .const (.leaf (Terminal.const (Name.numbered "c" (n + 1))))
  | named {type : ExprType} {t : Terminal} :
      .named t ∈ r.terminalsFor type → Grown r type (.leaf t)
  | ephemeral {type : ExprType} (n : Nat) :
      .ephemeral ∈ r.terminalsFor type →
      Grown r type (.leaf (Terminal.const (Name.numbered "c" (n + 1))))
  | operator {type : ExprType} {op : Operator} {ts : List Tree} :
      op ∈ r.operatorsReturning type → List.Forall₂ (Grown r) op.arguments ts →
      Grown r type (.node (.operator op) ts)
  | shape {arguments : List ExprType} {type : ExprType} {op : Operator} {ts : List Tree} :
      r.operatorWithSignature? arguments type = some op → List.Forall₂ (Grown r) arguments ts →
      Grown r type (.node (.operator op) ts)

namespace Draw

/-- Constants are named with the letter that makes them constants. -/
def Lettered (supply : Supply) : Prop :=
  supply.constantCounter.stem = "c"

variable {r : Registry}

theorem yields_freshConstant :
    Yields Lettered (fun t => Grown r .const (.leaf t)) freshConstant := by
  refine yields_supplied fun supply hI => ⟨?_, hI⟩
  change Grown r .const (.leaf (Terminal.const (Name.numbered supply.constantCounter.stem _)))
  rw [hI]
  exact .constant _

theorem mem_of_choose? {α : Type} {values : List α} {s : Stream} {a : α}
    (h : (Stream.choose? values s).1 = some a) : a ∈ values := by
  rw [Stream.choose?] at h
  -- the draw itself must not be computed: its loop is bounded by the period of the stream
  revert h
  generalize s.below values.length = drawn
  intro h
  by_cases hempty : values.isEmpty
  · rw [if_pos hempty] at h
    cases h
  · rw [if_neg hempty] at h
    obtain ⟨i, s'⟩ := drawn
    exact List.mem_of_getElem? h

theorem yields_terminal (type : ExprType) :
    Yields Lettered (fun t => Grown r type (.leaf t)) (terminal r type) := by
  rw [terminal]
  refine .bind (P := fun spec? => ∀ spec, spec? = some spec → spec ∈ r.terminalsFor type)
    (yields_random fun s spec hspec => mem_of_choose? hspec) fun spec? hmem => ?_
  cases spec? with
  | none => exact yields_throw
  | some spec =>
      have hspec := hmem spec rfl
      refine yields_supplied fun supply hI => ?_
      cases spec with
      | named t => exact ⟨.named hspec, hI⟩
      | ephemeral =>
          refine ⟨?_, hI⟩
          change Grown r type (.leaf (Terminal.const (Name.numbered supply.constantCounter.stem _)))
          rw [hI]
          exact .ephemeral _ hspec

theorem yields_operator {I : Supply → Prop} (type : ExprType) :
    Yields I (fun op => op ∈ r.operatorsReturning type) (operator r type) := by
  rw [operator]
  refine .bind (P := fun op? => ∀ op, op? = some op → op ∈ r.operatorsReturning type)
    (yields_random fun s op hop => mem_of_choose? hop) fun op? hmem => ?_
  cases op? with
  | none => exact yields_throw
  | some op => exact yields_pure (hmem op rfl)

theorem yields_shape {I : Supply → Prop} (arguments : List ExprType) (result : ExprType) :
    Yields I (fun op => r.operatorWithSignature? arguments result = some op)
      (shape r arguments result) := by
  rw [shape]
  split
  · next op hop => exact yields_pure hop
  · exact yields_throw

theorem yields_weightedTerm : Yields Lettered (Grown r .weightedTerm) (weightedTerm r) := by
  rw [weightedTerm]
  refine .bind (yields_shape _ _) fun product hproduct => ?_
  refine .bind (yields_terminal _) fun x hx => ?_
  refine .bind (yields_freshConstant (r := r)) fun c hc => ?_
  exact yields_pure (.shape hproduct (.cons hc (.cons hx .nil)))

theorem yields_weightedSum : Yields Lettered (Grown r .weightedSum) (weightedSum r) := by
  rw [weightedSum]
  refine .bind (yields_shape _ _) fun sum hsum => ?_
  refine .bind yields_weightedTerm fun product hproduct => ?_
  refine .bind (yields_freshConstant (r := r)) fun c hc => ?_
  exact yields_pure (.shape hsum (.cons hproduct (.cons hc .nil)))

theorem yields_close (type : ExprType) : Yields Lettered (Grown r type) (close r type) := by
  rw [close.eq_def]
  split
  · exact yields_weightedSum
  · exact yields_weightedTerm
  · exact .bind yields_freshConstant fun c hc => yields_pure hc
  · exact .bind (yields_terminal _) fun t ht => yields_pure ht

/-- Whatever the policy decides, what fills an obligation is grown for its type. -/
theorem yields_fill (policy : Policy) (height : Nat) :
    ∀ (levels depth : Nat) (type : ExprType),
      Yields Lettered (Grown r type) (fill r policy height levels depth type) := by
  intro levels
  induction levels with
  | zero =>
      intro depth type
      rw [fill]
      exact yields_endless
  | succ levels ih =>
      intro depth type
      rw [fill]
      refine .bind (P := fun _ => True) (yields_random fun _ => trivial) fun stop _ => ?_
      split
      · exact yields_close type
      · split
        · next htype =>
            subst htype
            exact .bind yields_freshConstant fun c hc => yields_pure hc
        · refine .bind (P := fun _ => True) ?_ fun leaf _ => ?_
          · split
            · exact yields_random fun _ => trivial
            · exact yields_pure trivial
          · split
            · exact .bind (yields_terminal _) fun t ht => yields_pure ht
            · refine .bind (yields_operator _) fun op hop => ?_
              refine .bind (.mapM fun argument _ => ih (depth + 1) argument) fun ts hts => ?_
              exact yields_pure (.operator hop hts)

end Draw

/-! ## From the height on -/

/-- Trees are only ever drawn between bounds that leave a height. -/
theorem le_of_generate {r : Registry} {low high : Nat} {policy : Policy} {root : Option ExprType}
    {s s' : Sources} {t : Tree} (h : generate r low high policy root s = some (.ok t, s')) :
    low ≤ high := by
  by_contra hheights
  rw [generate, if_pos (Nat.lt_of_not_le hheights)] at h
  cases h

/-- Once the height is drawn, generating is filling the root. -/
theorem generate_eq_fill {low high : Nat} (hheights : low ≤ high) (r : Registry) (policy : Policy)
    (root : Option ExprType) (stream : Stream) (supply : Supply) :
    generate r low high policy root ⟨stream, supply⟩ =
      Draw.fill r policy (stream.between low high).1 ((stream.between low high).1 + spareLevels) 0
        (root.getD r.rootType) ⟨(stream.between low high).2, supply⟩ := by
  rw [generate, if_neg (Nat.not_lt.mpr hheights)]
  exact Draw.random_bind_apply _ _ _

/-- Whatever comes of generating, constants keep their letter, and a tree is grown for the type that
was asked for. -/
theorem Draw.yields_generate (r : Registry) (low high : Nat) (policy : Policy)
    (root : Option ExprType) :
    Yields Lettered (Grown r (root.getD r.rootType)) (generate r low high policy root) := by
  intro s outcome s' hstem h
  by_cases hheights : high < low
  · rw [generate, if_pos hheights] at h
    cases h
    exact ⟨hstem, fun t ht => by cases ht⟩
  · obtain ⟨stream, supply⟩ := s
    rw [generate_eq_fill (Nat.le_of_not_lt hheights)] at h
    have hsupply : Lettered supply := hstem
    exact yields_fill policy _ _ _ _ _ outcome s' hsupply h

/-- A generated tree is grown for the type that was asked for. -/
theorem grown_of_generate {r : Registry} {low high : Nat} {policy : Policy}
    {root : Option ExprType} {s s' : Sources} {t : Tree} (hstem : Draw.Lettered s.supply)
    (h : generate r low high policy root s = some (.ok t, s')) :
    Grown r (root.getD r.rootType) t :=
  (Draw.yields_generate r low high policy root s _ s' hstem h).2 t rfl

/-! ## Runs from the outside -/

/-- What can be seen of a run: something of its tree, or its error, and what it has left of the
supply. -/
def observed? {β : Type} (see : Tree → β)
    (outcome : Option (Except GenerationError Tree × Sources)) :
    Option (Except GenerationError β × Supply) :=
  outcome.map fun result => (result.1.map see, result.2.supply)

section Observed

variable {β : Type} {see : Tree → β} {outcome : Option (Except GenerationError Tree × Sources)}
  {supply : Supply}

theorem exists_of_observed?_ok {seen : β} (h : observed? see outcome = some (.ok seen, supply)) :
    ∃ t stream, outcome = some (.ok t, ⟨stream, supply⟩) ∧ see t = seen := by
  obtain ⟨⟨_ | t, stream, _⟩, rfl, heq⟩ := Option.map_eq_some_iff.mp h
  · cases heq
  · cases heq
    exact ⟨t, stream, rfl, rfl⟩

theorem exists_of_observed?_error {error : GenerationError}
    (h : observed? see outcome = some (.error error, supply)) :
    ∃ stream, outcome = some (.error error, ⟨stream, supply⟩) := by
  obtain ⟨⟨_ | t, stream, _⟩, rfl, heq⟩ := Option.map_eq_some_iff.mp h
  · cases heq
    exact ⟨stream, rfl⟩
  · cases heq

end Observed

end SymbolicRegression
