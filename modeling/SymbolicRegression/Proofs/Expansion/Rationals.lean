import Mathlib.Algebra.Order.Field.Rat
import Mathlib.Data.Rat.Sqrt
import SymbolicRegression.Number.Decimal
import SymbolicRegression.Proofs.Expansion.Reading

/-!
# Expansion over the rational numbers

The rational numbers are coefficients that do not round, so they give every registry an exact reading.
Functions without arithmetic meaning are taken as sums of their arguments, and powers whose exponent
is no integer as zero; any other choice would do as well.
-/

namespace SymbolicRegression

namespace Rational

/-- The value of a finite double; zero for the others. -/
def ofDouble (x : Float) : ℚ :=
  match Binary.ofFloat? x with
  | some b => (if b.negative then -1 else 1) * b.mantissa * 2 ^ b.exponent
  | none => 0

/-- A power with an integer exponent; zero for any other exponent. -/
def power (a b : ℚ) : ℚ :=
  if b.den = 1 then a ^ b.num else 0

open Classical in
/-- Atoms are equal only if they are the same, and otherwise in the order of their printed forms. -/
noncomputable def compareAtoms (a b : Atom ℚ) : Ordering :=
  if a = b then .eq else (compare a.key b.key).then .lt

noncomputable instance : Coefficient ℚ where
  ofNat n := n
  abs a := |a|
  sqrt := Rat.sqrt
  isFinite _ := true
  isNaN _ := false
  lt a b := decide (a < b)
  le a b := decide (a ≤ b)
  eq a b := decide (a = b)
  power := power
  exponent? c := if c.den = 1 ∧ |c.num| ≤ 2147483647 then some c.num else none
  label := toString
  compareAtoms := compareAtoms

/-- What an operation computes. -/
def binary : BinaryOp → ℚ → ℚ → ℚ
  | .add, a, b => a + b
  | .sub, a, b => a - b
  | .mul, a, b => a * b
  | .div, a, b => a / b
  | .pow, a, b => power a b

/-- What a call computes: arithmetic where the registry takes the name for it, and a sum otherwise. -/
def function (r : Registry) (name : String) (values : List ℚ) : ℚ :=
  match r.operation? name, values with
  | some op, [a, b] => binary op a b
  | _, values =>
    match r.meaning? name, values with
    | some ⟨.neg, 1, _⟩, [a] => -a
    | _, values => values.sum

/-- The reading of a registry over the rational numbers. -/
def reading (r : Registry) (number : Float → ℚ := ofDouble) : Reading ℚ ℚ where
  number := number
  toField := id
  fold := function r
  function := function r
  power := power

theorem exponent?_eq_some {c : ℚ} {n : Int} (h : Coefficient.exponent? c = some n) :
    c.den = 1 ∧ c.num = n := by
  change (if c.den = 1 ∧ |c.num| ≤ 2147483647 then some c.num else none) = some n at h
  split at h
  · next hc =>
      cases h
      exact ⟨hc.1, rfl⟩
  · cases h

theorem power_intCast (a : ℚ) (n : Int) : power a n = a ^ n := by
  rw [power, Rat.den_intCast, if_pos rfl, Rat.num_intCast]

theorem reading_exact (r : Registry) (number : Float → ℚ := ofDouble) :
    (reading r number).Exact where
  zero := Nat.cast_zero
  one := Nat.cast_one
  add _ _ := rfl
  mul _ _ := rfl
  neg _ := rfl
  div _ _ _ := rfl
  eq _ _ := decide_eq_true_iff
  atoms a b h := by
    by_contra hne
    change compareAtoms a b = .eq at h
    rw [compareAtoms, if_neg hne, Ordering.then_eq_eq] at h
    cases h.2
  exponent c n h := by
    obtain ⟨hden, hnum⟩ := exponent?_eq_some h
    rw [← hnum]
    exact (Rat.den_eq_one_iff c).mp hden |>.symm
  power _ _ := rfl
  powerInt c n a h _ := by
    obtain ⟨hden, hnum⟩ := exponent?_eq_some h
    have hc : c = n := by rw [← hnum, (Rat.den_eq_one_iff c).mp hden]
    rw [hc]
    exact power_intCast a n
  function _ values := by
    change function r _ values = function r _ (values.map id)
    rw [List.map_id]

theorem reading_respects (r : Registry) : (reading r).Respects r where
  binary name op h a b := by
    change function r name [a, b] = (reading r).binary op a b
    simp only [function, h]
    cases op with
    | add => rfl
    | sub => rfl
    | mul => rfl
    | div => rfl
    | pow => rfl
  neg name m hm hneg harity a := by
    obtain ⟨arithmetic, arity, apply⟩ := m
    subst hneg
    subst harity
    change function r name [a] = -a
    have hnone : r.operation? name = none := by
      simp only [Registry.operation?, hm]
      rfl
    simp only [function, hnone, hm]

end Rational

end SymbolicRegression
