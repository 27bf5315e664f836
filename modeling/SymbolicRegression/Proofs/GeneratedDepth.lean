import SymbolicRegression.Proofs.GeneratedTypes
import SymbolicRegression.Proofs.GenerationErrors
import SymbolicRegression.Proofs.GenerationTurns
import SymbolicRegression.Proofs.Trees.Depths

/-!
# How deep generated trees are

An obligation that is opened still lies within the height: the turn that opened it had a level
left. So only the shape that closes an obligation can stand out, and by how much depends on its type
alone: a weighted sum is three levels tall, and one that is asked for on the last level stands out
by all of them. Where nobody asks for a weighted sum, the tallest such shape has two levels.
-/

namespace SymbolicRegression

/-- What closes an obligation has as many levels as its type announces. -/
theorem Closed.height_eq {type : ExprType} {t : Tree} (h : Closed type t) :
    t.height = type.reach := by
  induction h with
  | leaf t hreach => rw [hreach, Tree.leaf, Tree.height, Tree.heightAll]
  | weightedTerm product c x => rfl
  | weightedSum sum c ht ih =>
      rw [Tree.height, Tree.heightAll, ih]
      rfl

namespace Draw

variable {r : Registry}

/-- An obligation within the height is filled by a tree that stands out by no more than the tallest
shape of the types that are asked for. -/
theorem yields_fill_height {policy : Policy} (hpolicy : policy.StopsInTime) {height slack : Nat}
    {Asked : ExprType → Prop} (hslack : ∀ type, Asked type → type.reach ≤ slack)
    (hclosed : ∀ op ∈ r.operators, ∀ argument ∈ op.arguments, Asked argument) :
    ∀ (levels depth : Nat) (type : ExprType), depth ≤ height → Asked type →
      Yields (fun _ => True) (fun t => depth + t.height ≤ height + slack)
        (fill r policy height levels depth type) := by
  intro levels
  induction levels with
  | zero =>
      intro depth type _ _
      rw [fill]
      exact yields_endless
  | succ levels ih =>
      intro depth type hdepth htype
      rw [fill_succ]
      refine .bind (yields_turn hpolicy ⟨depth, type⟩) fun taken htaken => ?_
      cases htaken with
      | stopped ht =>
          refine yields_pure ?_
          rw [ht.height_eq]
          exact Nat.add_le_add hdepth (hslack type htype)
      | leaf t hroom => exact yields_pure (Nat.le_trans hroom (Nat.le_add_right _ _))
      | @operator op hroom hop =>
          refine .bind (.forall_mem_mapM fun argument hargument =>
            ih (depth + 1) argument hroom (hclosed op hop argument hargument)) fun ts hts => ?_
          refine yields_pure ?_
          have hall : Tree.heightAll ts ≤ height + slack - (depth + 1) :=
            Tree.heightAll_le_iff.mpr fun t ht => Nat.le_sub_of_add_le' (hts t ht)
          have hroom : depth + 1 ≤ height := hroom
          rw [Tree.height]
          omega

end Draw

/-- A generated tree stands out from its height by no more than the tallest shape of the types that
are asked for. -/
theorem height_le_of_generate {r : Registry} {low high : Nat} {policy : Policy}
    (hpolicy : policy.StopsInTime) {slack : Nat} (Asked : ExprType → Prop)
    (hslack : ∀ type, Asked type → type.reach ≤ slack)
    (hclosed : ∀ op ∈ r.operators, ∀ argument ∈ op.arguments, Asked argument)
    {root : Option ExprType} (hroot : Asked (root.getD r.rootType)) {stream : Stream}
    {supply : Supply} {t : Tree} {rest : Sources}
    (h : generate r low high policy root ⟨stream, supply⟩ = some (.ok t, rest)) :
    t.height ≤ (stream.between low high).1 + slack := by
  rw [generate_eq_fill (le_of_generate h)] at h
  generalize (stream.between low high).1 = height at h ⊢
  have hyields := Draw.yields_fill_height hpolicy hslack hclosed (height + spareLevels) 0
    (root.getD r.rootType) (Nat.zero_le height) hroot
  have hbound : 0 + t.height ≤ height + slack := (hyields _ _ _ trivial h).2 t rfl
  rwa [Nat.zero_add] at hbound

/-- Full and grow stop in time. For every policy that does, a generated tree keeps close to the
height that was drawn for it, which is the first thing that is read off the stream: no node lies
more than two levels below, so that it has at most three levels more. Where the root is no weighted
sum and no operator takes one, both bounds are smaller by one. Depths are those of the listing, as
they are read off it from the left, and levels are those that its fold counts. -/
theorem depth_of_generate :
    Policy.full.StopsInTime ∧ (∀ terminalRatio, (Policy.grow terminalRatio).StopsInTime) ∧
      ∀ policy : Policy, policy.StopsInTime →
        ∀ (r : Registry) (low high : Nat) (root : Option ExprType) (stream : Stream) (named : Nat)
          (others : NameCounter) (t : Tree) (rest : Sources),
          generate r low high policy root ⟨stream, ⟨⟨"c", named⟩, others⟩⟩ =
            some (.ok t, rest) →
          ∃ height depths levels, (stream.between low high).1 = height ∧
            low ≤ height ∧ height ≤ high ∧
            Preorder.depths? t.preorder = some depths ∧ depths.length = t.preorder.length ∧
            Preorder.height? t.preorder = some levels ∧
            (∀ depth ∈ depths, depth ≤ height + 2) ∧ levels ≤ height + 3 ∧
            (root.getD r.rootType ≠ .weightedSum →
              (∀ op ∈ r.operators, .weightedSum ∉ op.arguments) →
              (∀ depth ∈ depths, depth ≤ height + 1) ∧ levels ≤ height + 2) := by
  refine ⟨Policy.full_stopsInTime, Policy.grow_stopsInTime, ?_⟩
  intro policy hpolicy r low high root stream named others t rest h
  have hstem : Draw.Lettered ⟨⟨"c", named⟩, others⟩ := rfl
  have hfits := t.fits_of_grown (grown_of_generate hstem h)
  obtain ⟨hlow, hhigh⟩ := Stream.between_mem (le_of_generate h) stream
  have hdeep : t.height ≤ (stream.between low high).1 + 3 :=
    height_le_of_generate hpolicy (fun _ => True) (fun type _ => type.reach_le)
      (fun _ _ _ _ => trivial) trivial h
  refine ⟨_, t.depths 0, t.height, rfl, hlow, hhigh, Preorder.depths?_preorder hfits,
    t.length_depths 0, Preorder.height?_preorder hfits, ?_, hdeep, fun hroot hnone => ?_⟩
  · intro depth hmem
    have hlevel := t.lt_of_mem_depths hmem
    omega
  have hshallow : t.height ≤ (stream.between low high).1 + 2 := by
    refine height_le_of_generate hpolicy (fun type => type ≠ .weightedSum) ?_ ?_ hroot h
    · intro type hasked
      cases type with
      | weightedSum => exact absurd rfl hasked
      | any | const | var | weightedTerm => decide
    · rintro op hop argument hargument rfl
      exact hnone op hop hargument
  refine ⟨?_, hshallow⟩
  intro depth hmem
  have hlevel := t.lt_of_mem_depths hmem
  omega

/-- No bound can be smaller. At height one, an operator that takes a weighted sum gets one that
reaches down to depth three; where no operator does, a weighted term reaches down to depth two. -/
theorem depth_of_generate_tight :
    (∃ t rest levels,
        generate mixedRegistry 1 1 Policy.full (some .any) ⟨⟨8⟩, {}⟩ = some (.ok t, rest) ∧
        Preorder.depths? t.preorder = some [0, 1, 1, 2, 3, 3, 2, 1] ∧
        Preorder.height? t.preorder = some levels ∧ levels ≤ 1 + 3) ∧
      ∃ t rest levels,
        generate affineRegistry 1 1 Policy.full none ⟨⟨1⟩, {}⟩ = some (.ok t, rest) ∧
        Preorder.depths? t.preorder = some [0, 1, 2, 2, 1] ∧
        Preorder.height? t.preorder = some levels ∧ levels ≤ 1 + 2 := by
  obtain ⟨hfull, -, hall⟩ := depth_of_generate
  have hmixed : observed? (fun t => Preorder.depths? t.preorder)
      (generate mixedRegistry 1 1 Policy.full (some .any) ⟨⟨8⟩, {}⟩) =
        some (.ok (some [0, 1, 1, 2, 3, 3, 2, 1]), ⟨⟨"c", 3⟩, ⟨"x", 0⟩⟩) := by
    decide
  have haffine : observed? (fun t => Preorder.depths? t.preorder)
      (generate affineRegistry 1 1 Policy.full none ⟨⟨1⟩, {}⟩) =
        some (.ok (some [0, 1, 2, 2, 1]), ⟨⟨"c", 2⟩, ⟨"x", 0⟩⟩) := by
    decide
  have hnone : ∀ op ∈ affineRegistry.operators, ExprType.weightedSum ∉ op.arguments := by
    intro op hop
    change op ∈ [Registry.weightedSum, Registry.weightedProduct] at hop
    simp only [List.mem_cons, List.not_mem_nil, or_false] at hop
    rcases hop with rfl | rfl
    · decide
    · decide
  constructor
  · obtain ⟨t, stream, h, hdepths⟩ := exists_of_observed?_ok hmixed
    obtain ⟨height, _, levels, -, -, hhigh, -, -, hlevels, -, hbound, -⟩ :=
      hall _ hfull _ _ _ _ _ _ _ t _ h
    exact ⟨t, _, levels, h, hdepths, hlevels, by omega⟩
  · obtain ⟨t, stream, h, hdepths⟩ := exists_of_observed?_ok haffine
    obtain ⟨height, _, levels, -, -, hhigh, -, -, hlevels, -, -, hbound⟩ :=
      hall _ hfull _ _ _ _ _ _ _ t _ h
    obtain ⟨-, hbound⟩ := hbound (by decide) hnone
    exact ⟨t, _, levels, h, hdepths, hlevels, by omega⟩

end SymbolicRegression
