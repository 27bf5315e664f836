import SymbolicRegression.Proofs.Generation
import SymbolicRegression.Proofs.Registries

/-!
# What one turn of generation does

Generation takes one obligation after the other: a value of some type is owed at some depth. A turn
either closes its obligation, or draws an operator whose arguments are owed one level deeper.
`Draw.fill_succ` takes the turn out of the recursion, and `Turn.Takes` has one constructor for each
way in which a turn can go. What is proved of heights and of the number of turns rests on these two.

A policy stops in time if it stops every obligation that could no longer be closed within the target
height. So a turn that is not stopped has room: whatever closes an obligation of that type would
still fit, and for a leaf or an operator one level is enough.
-/

namespace SymbolicRegression

namespace ExprType

theorem reach_pos (type : ExprType) : 0 < type.reach := by
  cases type <;> decide

theorem reach_le (type : ExprType) : type.reach ≤ 3 := by
  cases type <;> decide

end ExprType

namespace Policy

/-- The policy stops whenever closing the obligation would pass the target height, whatever has been
drawn before. -/
def StopsInTime (policy : Policy) : Prop :=
  ∀ (height depth : Nat) (type : ExprType) (s : Stream),
    height < depth + type.reach → (policy.stop height depth type s).1 = true

theorem full_stopsInTime : full.StopsInTime := by
  intro height depth type s hpast
  exact decide_eq_true hpast

theorem grow_stopsInTime (terminalRatio : Float) : (grow terminalRatio).StopsInTime := by
  intro height depth type s hpast
  change (if height < depth + type.reach then _ else _ : Bool × Stream).1 = true
  rw [if_pos hpast]

/-- Where such a policy does not stop, a level is left. -/
theorem StopsInTime.room_of_stop_ne_true {policy : Policy} (h : policy.StopsInTime)
    {height depth : Nat} {type : ExprType} {s : Stream}
    (hstop : ¬(policy.stop height depth type s).1 = true) : depth + 1 ≤ height := by
  have hreach : depth + type.reach ≤ height :=
    Nat.le_of_not_lt fun hpast => hstop (h height depth type s hpast)
  exact Nat.le_trans (Nat.add_le_add_left type.reach_pos depth) hreach

end Policy

/-! ## Closing an obligation -/

/-- The trees that close an obligation of a type: the fixed weighted shapes, and single leaves. -/
inductive Closed : ExprType → Tree → Prop where
  | leaf {type : ExprType} (t : Terminal) : type.reach = 1 → Closed type (.leaf t)
  | weightedTerm (product : Operator) (c x : Terminal) :
      Closed .weightedTerm (.node (.operator product) [.leaf c, .leaf x])
  | weightedSum (sum : Operator) {t : Tree} (c : Terminal) :
      Closed .weightedTerm t → Closed .weightedSum (.node (.operator sum) [t, .leaf c])

namespace Draw

variable {r : Registry} {policy : Policy} {height : Nat}

theorem yields_closed_weightedTerm :
    Yields (fun _ => True) (Closed .weightedTerm) (weightedTerm r) := by
  rw [weightedTerm]
  refine .bind (yields_always _) fun product _ => ?_
  refine .bind (yields_always _) fun x _ => ?_
  refine .bind (yields_always _) fun c _ => ?_
  exact yields_pure (.weightedTerm product c x)

theorem yields_closed_weightedSum :
    Yields (fun _ => True) (Closed .weightedSum) (weightedSum r) := by
  rw [weightedSum]
  refine .bind (yields_always _) fun sum _ => ?_
  refine .bind yields_closed_weightedTerm fun product hproduct => ?_
  refine .bind (yields_always _) fun c _ => ?_
  exact yields_pure (.weightedSum sum c hproduct)

theorem yields_closed (type : ExprType) :
    Yields (fun _ => True) (Closed type) (close r type) := by
  cases type with
  | weightedSum => exact yields_closed_weightedSum
  | weightedTerm => exact yields_closed_weightedTerm
  | const => exact .bind (yields_always _) fun c _ => yields_pure (.leaf c rfl)
  | any => exact .bind (yields_always _) fun t _ => yields_pure (.leaf t rfl)
  | var => exact .bind (yields_always _) fun t _ => yields_pure (.leaf t rfl)

end Draw

/-! ## One turn -/

/-- A value of this type is owed at this depth. -/
structure Obligation where
  depth : Nat
  type : ExprType

/-- What one turn makes of an obligation. -/
inductive Turn where
  | closed (t : Tree)
  /-- The operator's arguments are owed in turn. -/
  | opened (op : Operator)

namespace Turn

def nodes : Turn → List Node
  | closed t => t.preorder
  | opened op => [.operator op]

/-- The obligations that are opened by a turn at that depth, the leftmost first. -/
def owed (depth : Nat) : Turn → List Obligation
  | closed _ => []
  | opened op => op.arguments.map fun argument => ⟨depth + 1, argument⟩

end Turn

namespace Draw

/-- Takes one obligation: closes it where the policy stops or a leaf will do, and otherwise draws an
operator. -/
def turn (registry : Registry) (policy : Policy) (height : Nat) (o : Obligation) : Draw Turn := do
  if ← random (policy.stop height o.depth o.type) then
    return .closed (← close registry o.type)
  else if o.type = .const then
    return .closed (.leaf (← freshConstant))
  else if ← (if o.type = .var then random Stream.coin else pure false) then
    return .closed (.leaf (← terminal registry o.type))
  else
    return .opened (← operator registry o.type)

variable {r : Registry} {policy : Policy} {height : Nat}

/-- The recursion takes a turn and goes on below the operator, if it drew one. -/
theorem fill_succ (levels depth : Nat) (type : ExprType) :
    fill r policy height (levels + 1) depth type =
      turn r policy height ⟨depth, type⟩ >>= fun taken =>
        match taken with
        | .closed t => pure t
        | .opened op => do
          let children ← op.arguments.mapM fun argument =>
            fill r policy height levels (depth + 1) argument
          return .node (.operator op) children := by
  rw [fill, turn, bind_assoc]
  refine bind_congr fun stop => ?_
  split
  · simp only [bind_assoc, pure_bind, bind_pure]
  · split
    · simp only [bind_assoc, pure_bind]
    · simp only [bind_assoc]
      refine bind_congr fun leaf => ?_
      split
      · simp only [bind_assoc, pure_bind]
      · simp only [bind_assoc, pure_bind]

end Draw

/-- The ways in which a turn can go under a policy that stops in time. -/
inductive Turn.Takes (r : Registry) (height : Nat) (o : Obligation) : Turn → Prop where
  | stopped {t : Tree} : Closed o.type t → Takes r height o (.closed t)
  | leaf (t : Terminal) : o.depth + 1 ≤ height → Takes r height o (.closed (.leaf t))
  | operator {op : Operator} :
      o.depth + 1 ≤ height → op ∈ r.operators → Takes r height o (.opened op)

namespace Draw

variable {r : Registry} {policy : Policy} {height : Nat}

theorem yields_turn (hpolicy : policy.StopsInTime) (o : Obligation) :
    Yields (fun _ => True) (Turn.Takes r height o) (turn r policy height o) := by
  rw [turn]
  refine .bind (P := fun stop => ¬stop = true → o.depth + 1 ≤ height)
    (yields_random fun s => hpolicy.room_of_stop_ne_true) fun stop hroom => ?_
  split
  · exact .bind (yields_closed o.type) fun t ht => yields_pure (.stopped ht)
  · next hgo =>
      split
      · exact .bind (yields_always _) fun c _ => yields_pure (.leaf c (hroom hgo))
      · refine .bind (yields_always _) fun leaf _ => ?_
        split
        · exact .bind (yields_always _) fun t _ => yields_pure (.leaf t (hroom hgo))
        · refine .bind (yields_operator o.type) fun op hop => yields_pure ?_
          exact .operator (hroom hgo) (Registry.mem_operators_of_mem_operatorsReturning hop)

end Draw

end SymbolicRegression
