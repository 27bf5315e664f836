import Mathlib.Algebra.Ring.GeomSum
import SymbolicRegression.Proofs.GeneratedDepth

/-!
# The loop over open obligations ends

Filling an obligation is a recursion over the tree that comes of it. The same work is a loop over the
obligations that are still open: each turn takes the leftmost one and either closes it or opens one
for every argument of an operator. The number of open obligations grows as well as shrinks, and how
far it grows is left to the stream.

What does shrink is a weight. With at most `m` arguments to an operator, an obligation that is left
`k` levels weighs `1 + m + m ^ 2 + … + m ^ k`, which is one more than `m` obligations with a level
less. A policy that stops in time never opens an obligation below the last level, so every turn pays
for itself, and the weight of the root bounds the turns. A turn emits five nodes at most, those of a
weighted sum.

The loop is stated with a bound on its turns. `Draw.loop_congr` says that the bound plays no part as
long as it covers the weight of what is open, and `Draw.loop_cons_eq` that the loop is then the
recursion: in its results, in its errors and in what is left of the sources.
-/

namespace SymbolicRegression

/-! ## Weights -/

/-- The largest number of arguments that an operator takes. -/
def Registry.maxArity (r : Registry) : Nat :=
  (r.operators.map Operator.arity).foldr max 0

theorem Registry.arity_le_maxArity {r : Registry} {op : Operator} (h : op ∈ r.operators) :
    op.arity ≤ r.maxArity := by
  rw [maxArity]
  generalize r.operators = ops at h
  induction ops with
  | nil => cases h
  | cons first ops ih =>
      rw [List.map_cons, List.foldr_cons]
      rcases List.mem_cons.mp h with rfl | h
      · exact Nat.le_max_left _ _
      · exact Nat.le_trans (ih h) (Nat.le_max_right _ _)

/-- How many obligations there can be on this many levels, with at most `m` below each. -/
def branches (m levels : Nat) : Nat :=
  ∑ i ∈ Finset.range levels, m ^ i

theorem branches_succ (m levels : Nat) : branches m (levels + 1) = m * branches m levels + 1 :=
  geom_sum_succ

namespace Obligation

/-- The obligations that can come of one within the height, itself included. -/
def weight (m height : Nat) (o : Obligation) : Nat :=
  branches m (height + 1 - o.depth)

def totalWeight (m height : Nat) (pending : List Obligation) : Nat :=
  (pending.map (weight m height)).sum

variable {m height : Nat}

theorem totalWeight_cons (o : Obligation) (pending : List Obligation) :
    totalWeight m height (o :: pending) = o.weight m height + totalWeight m height pending := by
  rw [totalWeight, List.map_cons, List.sum_cons, totalWeight]

theorem totalWeight_append (opened pending : List Obligation) :
    totalWeight m height (opened ++ pending) =
      totalWeight m height opened + totalWeight m height pending := by
  rw [totalWeight, List.map_append, List.sum_append, totalWeight, totalWeight]

theorem weight_pos {o : Obligation} (h : o.depth ≤ height) : 0 < o.weight m height := by
  rw [weight, Nat.succ_sub h, branches_succ]
  exact Nat.succ_pos _

/-- All arguments of an operator are owed at one depth, and so each of them weighs the same. -/
theorem totalWeight_arguments (depth : Nat) (arguments : List ExprType) :
    totalWeight m height (arguments.map fun argument => ⟨depth, argument⟩) =
      arguments.length * branches m (height + 1 - depth) := by
  induction arguments with
  | nil => rw [List.map_nil, List.length_nil, Nat.zero_mul]; rfl
  | cons argument arguments ih =>
      rw [List.map_cons, totalWeight_cons, ih, weight, List.length_cons, Nat.succ_mul, Nat.add_comm]

/-- Nothing open lies below the last level, and the weight of it all bounds the turns. -/
structure Covered (m height turns : Nat) (pending : List Obligation) : Prop where
  within : ∀ p ∈ pending, p.depth ≤ height
  weight : totalWeight m height pending ≤ turns

namespace Covered

variable {turns : Nat} {o : Obligation} {pending : List Obligation}

theorem root (type : ExprType) (h : branches m (height + 1) ≤ turns) :
    Covered m height turns [⟨0, type⟩] where
  within := List.forall_mem_singleton.mpr (Nat.zero_le height)
  weight := h

theorem head (h : Covered m height turns (o :: pending)) : o.depth ≤ height :=
  h.within o List.mem_cons_self

theorem of_append (opened : List Obligation) (h : Covered m height turns (opened ++ pending)) :
    Covered m height turns pending where
  within := (List.forall_mem_append.mp h.within).2
  weight := by
    have hweight := h.weight
    rw [totalWeight_append] at hweight
    exact Nat.le_of_add_left_le hweight

theorem tail (h : Covered m height turns (o :: pending)) : Covered m height turns pending :=
  of_append [o] h

/-- Taking an obligation takes a turn. -/
theorem turns_pos (h : Covered m height turns (o :: pending)) : 0 < turns := by
  have hweight := h.weight
  rw [totalWeight_cons] at hweight
  exact Nat.lt_of_lt_of_le (Nat.add_pos_left (weight_pos h.head) _) hweight

end Covered

end Obligation

/-- Each level but the last has an operator and adds a leaf. -/
theorem Closed.length_preorder {type : ExprType} {t : Tree} (h : Closed type t) :
    t.preorder.length + 1 = 2 * type.reach := by
  induction h with
  | leaf t hreach => rw [hreach, Tree.leaf, Tree.preorder, Tree.preorderAll, List.length_singleton]
  | weightedTerm product c x => rfl
  | weightedSum sum c ht ih =>
      rw [Tree.preorder, Tree.preorderAll, List.length_cons, List.length_append]
      change _ + 1 + 1 + 1 = 2 * ExprType.weightedTerm.reach + 2
      rw [ih]

theorem Closed.length_preorder_le {type : ExprType} {t : Tree} (h : Closed type t) :
    t.preorder.length ≤ 5 := by
  have hlength := h.length_preorder
  have hreach := type.reach_le
  omega

/-- What a turn at that obligation does to the loop: it emits few nodes, opens nothing below the
last level, and what it opens weighs less than what it took. -/
structure Turn.Pays (m height : Nat) (o : Obligation) (taken : Turn) : Prop where
  nodes : taken.nodes.length ≤ 5
  within : ∀ p ∈ taken.owed o.depth, p.depth ≤ height
  weight : Obligation.totalWeight m height (taken.owed o.depth) < o.weight m height

namespace Turn

variable {m height : Nat} {o : Obligation}

/-- What is left after a turn is covered with one turn less. -/
theorem Pays.covered {taken : Turn} (h : taken.Pays m height o) {pending : List Obligation}
    {turns : Nat} (hcovered : Obligation.Covered m height (turns + 1) (o :: pending)) :
    Obligation.Covered m height turns (taken.owed o.depth ++ pending) where
  within := List.forall_mem_append.mpr ⟨h.within, hcovered.tail.within⟩
  weight := by
    have htaken := h.weight
    have hall := hcovered.weight
    rw [Obligation.totalWeight_cons] at hall
    rw [Obligation.totalWeight_append]
    omega

theorem pays_closed {t : Tree} (ho : o.depth ≤ height) (ht : t.preorder.length ≤ 5) :
    (closed t).Pays m height o where
  nodes := ht
  within := List.forall_mem_nil _
  weight := Obligation.weight_pos ho

theorem pays_opened {op : Operator} (hroom : o.depth + 1 ≤ height) (harity : op.arity ≤ m) :
    (opened op).Pays m height o where
  nodes := by rw [nodes, List.length_singleton]; decide
  within := by
    rintro p hp
    obtain ⟨argument, -, rfl⟩ := List.mem_map.mp hp
    exact hroom
  weight := by
    have hlevels : height + 1 - o.depth = height + 1 - (o.depth + 1) + 1 := by omega
    rw [owed, Obligation.totalWeight_arguments, Obligation.weight, hlevels, branches_succ]
    exact Nat.lt_succ_of_le (Nat.mul_le_mul_right _ harity)

/-- Every turn within the height pays for itself. -/
theorem Takes.pays {r : Registry} {taken : Turn} (h : taken.Takes r height o)
    (ho : o.depth ≤ height) : taken.Pays r.maxArity height o := by
  cases h with
  | stopped ht => exact pays_closed ho ht.length_preorder_le
  | leaf t hroom => exact pays_closed ho (Nat.le_add_left 1 4)
  | operator hroom hop => exact pays_opened hroom (Registry.arity_le_maxArity hop)

end Turn

/-! ## The whole loop -/

namespace Draw

/-- Takes the leftmost obligation until none is left; `turns` bounds how many may be taken. -/
def loop (registry : Registry) (policy : Policy) (height : Nat) :
    (turns : Nat) → List Obligation → List Node → Draw (List Node)
  | _, [], emitted => pure emitted
  | 0, _ :: _, _ => endless
  | turns + 1, o :: pending, emitted => do
    let taken ← turn registry policy height o
    loop registry policy height turns (taken.owed o.depth ++ pending) (emitted ++ taken.nodes)

variable {r : Registry} {policy : Policy} {height : Nat}

/-- The draw has an outcome, whatever its sources are. -/
def Ends {α : Type} (x : Draw α) : Prop :=
  ∀ s, ∃ outcome s', x s = some (outcome, s')

section Ends

variable {α β : Type}

theorem ends_pure {a : α} : Ends (pure a) :=
  fun s => ⟨.ok a, s, rfl⟩

theorem ends_throw {e : GenerationError} : Ends (throw e : Draw α) :=
  fun s => ⟨.error e, s, rfl⟩

theorem ends_random {f : Stream → α × Stream} : Ends (random f) :=
  fun _ => ⟨_, _, rfl⟩

theorem ends_supplied {f : Supply → α × Supply} : Ends (supplied f) :=
  fun _ => ⟨_, _, rfl⟩

theorem Ends.bind {P : α → Prop} {x : Draw α} {f : α → Draw β} (hx : Ends x)
    (hP : Yields (fun _ => True) P x) (hf : ∀ a, P a → Ends (f a)) : Ends (x >>= f) := by
  intro s
  obtain ⟨outcome, s', hxs⟩ := hx s
  rw [bind_apply, hxs, Option.bind_some]
  cases outcome with
  | error e => exact ⟨.error e, s', rfl⟩
  | ok a => exact hf a ((hP s _ s' trivial hxs).2 a rfl) s'

theorem ends_terminal (type : ExprType) : Ends (terminal r type) := by
  rw [terminal]
  refine .bind ends_random (yields_always _) fun spec? _ => ?_
  cases spec? with
  | none => exact ends_throw
  | some spec => exact ends_supplied

theorem ends_operator (type : ExprType) : Ends (operator r type) := by
  rw [operator]
  refine .bind ends_random (yields_always _) fun op? _ => ?_
  cases op? with
  | none => exact ends_throw
  | some op => exact ends_pure

theorem ends_shape (arguments : List ExprType) (result : ExprType) :
    Ends (shape r arguments result) := by
  rw [shape]
  split
  · exact ends_pure
  · exact ends_throw

theorem ends_weightedTerm : Ends (weightedTerm r) := by
  rw [weightedTerm]
  refine .bind (ends_shape _ _) (yields_always _) fun product _ => ?_
  refine .bind (ends_terminal _) (yields_always _) fun x _ => ?_
  exact .bind ends_supplied (yields_always _) fun c _ => ends_pure

theorem ends_weightedSum : Ends (weightedSum r) := by
  rw [weightedSum]
  refine .bind (ends_shape _ _) (yields_always _) fun sum _ => ?_
  refine .bind ends_weightedTerm (yields_always _) fun product _ => ?_
  exact .bind ends_supplied (yields_always _) fun c _ => ends_pure

theorem ends_close (type : ExprType) : Ends (close r type) := by
  rw [close.eq_def]
  split
  · exact ends_weightedSum
  · exact ends_weightedTerm
  · exact .bind ends_supplied (yields_always _) fun c _ => ends_pure
  · exact .bind (ends_terminal _) (yields_always _) fun t _ => ends_pure

theorem ends_turn {o : Obligation} : Ends (turn r policy height o) := by
  rw [turn]
  refine .bind ends_random (yields_always _) fun stop _ => ?_
  split
  · exact .bind (ends_close _) (yields_always _) fun t _ => ends_pure
  · split
    · exact .bind ends_supplied (yields_always _) fun c _ => ends_pure
    · refine .bind ?_ (yields_always _) fun leaf _ => ?_
      · split
        · exact ends_random
        · exact ends_pure
      · split
        · exact .bind (ends_terminal _) (yields_always _) fun t _ => ends_pure
        · exact .bind (ends_operator _) (yields_always _) fun op _ => ends_pure

end Ends

/-- What follows a draw matters only for what the draw can yield. -/
theorem bind_congr_of_yields {α β : Type} {P : α → Prop} {x : Draw α} {f g : α → Draw β}
    (hx : Yields (fun _ => True) P x) (h : ∀ a, P a → f a = g a) : x >>= f = x >>= g := by
  funext s
  rw [bind_apply, bind_apply]
  cases hxs : x s with
  | none => rfl
  | some result =>
      obtain ⟨outcome, s'⟩ := result
      cases outcome with
      | error e => rfl
      | ok a =>
          have hP := (hx s _ s' trivial hxs).2 a rfl
          exact congrFun (h a hP) s'

/-- If the loop takes single obligations as the recursion fills them, then it takes the arguments of
an operator one after the other. -/
theorem loop_arguments_eq {turns levels depth : Nat} {pending : List Obligation}
    (hcons : ∀ (type : ExprType) (pending : List Obligation) (emitted : List Node),
      Obligation.Covered r.maxArity height turns (⟨depth, type⟩ :: pending) →
      loop r policy height turns (⟨depth, type⟩ :: pending) emitted =
        fill r policy height levels depth type >>= fun t =>
          loop r policy height turns pending (emitted ++ t.preorder)) :
    ∀ (arguments : List ExprType) (emitted : List Node),
      Obligation.Covered r.maxArity height turns
        (arguments.map (fun argument => ⟨depth, argument⟩) ++ pending) →
      loop r policy height turns
          (arguments.map (fun argument => ⟨depth, argument⟩) ++ pending) emitted =
        (arguments.mapM fun argument => fill r policy height levels depth argument) >>= fun ts =>
          loop r policy height turns pending (emitted ++ Tree.preorderAll ts)
  | [], emitted, _ => by
      rw [List.mapM_nil, pure_bind, Tree.preorderAll, List.append_nil]
      rfl
  | argument :: arguments, emitted, hcovered => by
      rw [List.map_cons, List.cons_append] at hcovered ⊢
      rw [hcons argument _ emitted hcovered, List.mapM_cons, bind_assoc]
      refine bind_congr fun t => ?_
      rw [loop_arguments_eq hcons arguments _ hcovered.tail, bind_assoc]
      refine bind_congr fun ts => ?_
      rw [pure_bind, Tree.preorderAll, List.append_assoc]

section Loop

variable (hpolicy : policy.StopsInTime)
include hpolicy

theorem yields_pays {o : Obligation} (ho : o.depth ≤ height) :
    Yields (fun _ => True) (Turn.Pays r.maxArity height o) (turn r policy height o) :=
  (yields_turn hpolicy o).mono fun _ htaken => htaken.pays ho

/-- The bound on the turns plays no part once it covers what is open. -/
theorem loop_congr : ∀ (turns turns' : Nat) (pending : List Obligation) (emitted : List Node),
    Obligation.Covered r.maxArity height turns pending →
      Obligation.Covered r.maxArity height turns' pending →
      loop r policy height turns pending emitted = loop r policy height turns' pending emitted
  | _, _, [], _, _, _ => by rw [loop, loop]
  | 0, _, _ :: _, _, hcovered, _ => absurd hcovered.turns_pos (Nat.lt_irrefl 0)
  | _, 0, _ :: _, _, _, hcovered => absurd hcovered.turns_pos (Nat.lt_irrefl 0)
  | turns + 1, turns' + 1, o :: pending, emitted, hcovered, hcovered' => by
      rw [loop, loop]
      refine bind_congr_of_yields (yields_pays hpolicy hcovered.head) fun taken hpays => ?_
      exact loop_congr turns turns' _ _ (hpays.covered hcovered) (hpays.covered hcovered')

/-- Each turn emits five nodes at most. -/
theorem yields_loop : ∀ (turns : Nat) (pending : List Obligation) (emitted : List Node),
    Obligation.Covered r.maxArity height turns pending →
      Yields (fun _ => True) (fun nodes => nodes.length ≤ emitted.length + 5 * turns)
        (loop r policy height turns pending emitted)
  | turns, [], emitted, _ => by
      rw [loop]
      exact yields_pure (Nat.le_add_right _ _)
  | 0, _ :: _, _, hcovered => absurd hcovered.turns_pos (Nat.lt_irrefl 0)
  | turns + 1, o :: pending, emitted, hcovered => by
      rw [loop]
      refine .bind (yields_pays hpolicy hcovered.head) fun taken hpays => ?_
      refine (yields_loop turns _ _ (hpays.covered hcovered)).mono fun nodes hnodes => ?_
      have hfew := hpays.nodes
      rw [List.length_append] at hnodes
      omega

theorem ends_loop : ∀ (turns : Nat) (pending : List Obligation) (emitted : List Node),
    Obligation.Covered r.maxArity height turns pending →
      Ends (loop r policy height turns pending emitted)
  | _, [], _, _ => by
      rw [loop]
      exact ends_pure
  | 0, _ :: _, _, hcovered => absurd hcovered.turns_pos (Nat.lt_irrefl 0)
  | turns + 1, o :: pending, emitted, hcovered => by
      rw [loop]
      refine .bind ends_turn (yields_pays hpolicy hcovered.head) fun taken hpays => ?_
      exact ends_loop turns _ _ (hpays.covered hcovered)

/-- The loop takes an obligation as the recursion fills it, and goes on with the others. -/
theorem loop_cons_eq : ∀ (levels turns : Nat) (o : Obligation) (pending : List Obligation)
    (emitted : List Node), height < levels + o.depth →
      Obligation.Covered r.maxArity height turns (o :: pending) →
      loop r policy height turns (o :: pending) emitted =
        fill r policy height levels o.depth o.type >>= fun t =>
          loop r policy height turns pending (emitted ++ t.preorder) := by
  intro levels
  induction levels with
  | zero =>
      intro turns o pending emitted hlevels hcovered
      have hdepth := hcovered.head
      omega
  | succ levels ih =>
      intro turns o pending emitted hlevels hcovered
      obtain ⟨turns, rfl⟩ := Nat.exists_eq_add_one.mpr hcovered.turns_pos
      rw [loop, fill_succ, bind_assoc]
      refine bind_congr_of_yields (yields_pays hpolicy hcovered.head) fun taken hpays => ?_
      have hleft := hpays.covered hcovered
      cases taken with
      | closed t =>
          rw [pure_bind]
          exact loop_congr hpolicy turns (turns + 1) pending _ hleft hcovered.tail
      | opened op =>
          have hlevels : height < levels + (o.depth + 1) := by omega
          rw [Turn.owed] at hleft ⊢
          rw [loop_arguments_eq (fun type pending emitted => ih turns ⟨o.depth + 1, type⟩ pending
            emitted hlevels) op.arguments _ hleft, bind_assoc]
          refine bind_congr fun ts => ?_
          rw [pure_bind, Turn.nodes, Tree.preorder, List.append_assoc, List.singleton_append]
          exact loop_congr hpolicy turns (turns + 1) pending _ (hleft.of_append _) hcovered.tail

end Loop

theorem map_apply {α β : Type} (f : α → β) (x : Draw α) (s : Sources) :
    (f <$> x) s = (x s).map fun result => (result.1.map f, result.2) := by
  rw [map_eq_pure_bind, bind_apply]
  cases x s with
  | none => rfl
  | some result =>
      obtain ⟨outcome, s'⟩ := result
      cases outcome with
      | error e => rfl
      | ok a => rfl

section Root

variable (hpolicy : policy.StopsInTime) {type : ExprType}
include hpolicy

/-- From one obligation at the root, the loop lists the tree that the recursion fills it with. -/
theorem loop_root_eq {levels turns : Nat} (hlevels : height < levels)
    (hturns : branches r.maxArity (height + 1) ≤ turns) :
    loop r policy height turns [⟨0, type⟩] [] =
      Tree.preorder <$> fill r policy height levels 0 type := by
  rw [loop_cons_eq hpolicy levels turns ⟨0, type⟩ [] [] hlevels (.root type hturns),
    map_eq_pure_bind]
  refine bind_congr fun t => ?_
  rw [loop, List.nil_append]

/-- An obligation at the root is filled, or an error says why not, and a tree that fills it is no
larger than the turns of the loop allow. -/
theorem exists_fill_root_eq {levels : Nat} (hlevels : height < levels) (s : Sources) :
    ∃ outcome rest, fill r policy height levels 0 type s = some (outcome, rest) ∧
      (∀ turns, branches r.maxArity (height + 1) ≤ turns →
        loop r policy height turns [⟨0, type⟩] [] s = some (outcome.map Tree.preorder, rest)) ∧
      ∀ t, outcome = .ok t → t.preorder.length ≤ 5 * branches r.maxArity (height + 1) := by
  have hcovered := Obligation.Covered.root type (Nat.le_refl (branches r.maxArity (height + 1)))
  have hloop : ∀ turns, branches r.maxArity (height + 1) ≤ turns →
      loop r policy height turns [⟨0, type⟩] [] s =
        (fill r policy height levels 0 type s).map fun result =>
          (result.1.map Tree.preorder, result.2) := by
    intro turns hturns
    rw [loop_root_eq hpolicy hlevels hturns, map_apply]
  obtain ⟨listed, rest, hend⟩ := ends_loop hpolicy _ _ [] hcovered s
  have hfew := (yields_loop hpolicy _ _ [] hcovered s listed rest trivial hend).2
  rw [hloop _ (Nat.le_refl _), Option.map_eq_some_iff] at hend
  obtain ⟨⟨outcome, rest⟩, hfill, heq⟩ := hend
  cases heq
  refine ⟨outcome, rest, hfill, fun turns hturns => ?_, ?_⟩
  · rw [hloop turns hturns, hfill, Option.map_some]
  · rintro t rfl
    have hlength := hfew t.preorder rfl
    rwa [List.length_nil, Nat.zero_add] at hlength

end Root

end Draw

/-- Full and grow stop in time. For every policy that does, generation ends, with a tree or with an
error, whatever the registry, the root and the stream are. For the height `h` that was drawn, the
loop over the open obligations needs `1 + m + … + m ^ h` turns at most, where `m` is the largest
number of arguments of an operator: with any bound from there on it comes to the same result and the
same rest of the sources. The listing of the tree has five nodes at most for each of these turns. -/
theorem generate_ends :
    Policy.full.StopsInTime ∧ (∀ terminalRatio, (Policy.grow terminalRatio).StopsInTime) ∧
      ∀ policy : Policy, policy.StopsInTime →
        ∀ (r : Registry) (low high : Nat) (root : Option ExprType) (stream : Stream)
          (supply : Supply), low ≤ high → ∀ height, (stream.between low high).1 = height →
          ∃ outcome rest, generate r low high policy root ⟨stream, supply⟩ = some (outcome, rest) ∧
            (∀ turns, ∑ i ∈ Finset.range (height + 1), r.maxArity ^ i ≤ turns →
              Draw.loop r policy height turns [⟨0, root.getD r.rootType⟩] []
                ⟨(stream.between low high).2, supply⟩ =
                  some (outcome.map Tree.preorder, rest)) ∧
            ∀ t, outcome = .ok t →
              t.preorder.length ≤ 5 * ∑ i ∈ Finset.range (height + 1), r.maxArity ^ i := by
  refine ⟨Policy.full_stopsInTime, Policy.grow_stopsInTime, ?_⟩
  intro policy hpolicy r low high root stream supply hheights height hheight
  rw [generate_eq_fill hheights, hheight]
  have hspare : 0 < spareLevels := Nat.two_pow_pos 64
  exact Draw.exists_fill_root_eq hpolicy (Nat.lt_add_of_pos_right hspare) _

/-- At height one, an operator with three arguments takes all four turns that there may be. Without a
variable the loop ends as well, with the error of the recursion. -/
theorem generate_ends_mixed :
    (∃ t rest, generate mixedRegistry 1 1 Policy.full (some .any) ⟨⟨8⟩, {}⟩ =
        some (.ok t, rest) ∧
      Draw.loop mixedRegistry Policy.full 1 4 [⟨0, .any⟩] [] ⟨⟨8⟩, {}⟩ =
        some (.ok t.preorder, rest) ∧ t.preorder.length ≤ 5 * 4) ∧
      ∃ rest, generate (Registry.weighted "empty") 1 1 Policy.full none ⟨⟨7⟩, {}⟩ =
          some (.error (.exhausted .terminal .var), rest) ∧
        Draw.loop (Registry.weighted "empty") Policy.full 1 3 [⟨0, .var⟩] [] ⟨⟨7⟩, {}⟩ =
          some (.error (.exhausted .terminal .var), rest) := by
  have hdrawn : observed? (fun t => t.preorder.length)
      (generate mixedRegistry 1 1 Policy.full (some .any) ⟨⟨8⟩, {}⟩) =
        some (.ok 8, ⟨⟨"c", 3⟩, ⟨"x", 0⟩⟩) := by
    decide
  have hfails : observed? (fun t => t.preorder.length)
      (generate (Registry.weighted "empty") 1 1 Policy.full none ⟨⟨7⟩, {}⟩) =
        some (.error (.exhausted .terminal .var), ⟨⟨"c", 1⟩, ⟨"x", 0⟩⟩) := by
    decide
  obtain ⟨hfull, -, hall⟩ := generate_ends
  constructor
  · obtain ⟨t, stream, h, -⟩ := exists_of_observed?_ok hdrawn
    obtain ⟨outcome, rest', hrun, hloop, hlength⟩ :=
      hall _ hfull mixedRegistry 1 1 (some .any) ⟨8⟩ {} (by decide) 1 rfl
    have hbound : ∑ i ∈ Finset.range 2, mixedRegistry.maxArity ^ i = 4 := by decide
    rw [h] at hrun
    cases hrun
    rw [hbound] at hloop hlength
    exact ⟨t, _, h, hloop 4 (by decide), hlength t rfl⟩
  · obtain ⟨stream, h⟩ := exists_of_observed?_error hfails
    obtain ⟨outcome, rest', hrun, hloop, -⟩ :=
      hall _ hfull (Registry.weighted "empty") 1 1 none ⟨7⟩ {} (by decide) 1 rfl
    have hbound : ∑ i ∈ Finset.range 2, (Registry.weighted "empty").maxArity ^ i = 3 := by
      decide
    rw [h] at hrun
    cases hrun
    rw [hbound] at hloop
    exact ⟨_, h, hloop 3 (by decide)⟩

end SymbolicRegression
