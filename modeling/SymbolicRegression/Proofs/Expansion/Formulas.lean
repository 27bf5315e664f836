import SymbolicRegression.Proofs.Expansion.Meaning

/-!
# Formulas have the value of their text

The theorem on expressions is carried over to texts. A formula has doubles as coefficients, so what
is said about its meaning is said about the same expansion over numbers that do not round: the text
is parsed as it is, its numbers are read, and the expansion that gave the formula is carried out on
them. That it succeeds there too is part of the statement.
-/

namespace SymbolicRegression

variable {K F : Type} [Coefficient K] [Field F] {R : Reading K F} {r : Registry}

/-- Every text that has a formula has the same meaning before and after expansion: over exact numbers
it expands as well, and wherever the expression has a value, the sum of monomials has that value. -/
def Reading.PreservesMeaning (R : Reading K F) (r : Registry) : Prop :=
  ∀ text value? formula, Formula.ofText text r value? = .ok formula →
    ∃ e p, parse text = .ok e ∧
      (e.mapNumbers R.number).expand (R.meaning? r)
        (value?.map fun value name => R.number (value name)) = .ok p ∧
      ∀ symbols,
        (e.mapNumbers fun c => R.toField (R.number c)).Defined r
          (R.interpretation r value? symbols) →
        (e.mapNumbers fun c => R.toField (R.number c)).value?
          (R.interpretation r value? symbols) = some (R.valueOf symbols p)

namespace Formula

theorem ofText_eq_ok {text : String} {value? : Option (String → Float)} {formula : Formula}
    (h : ofText text r value? = .ok formula) :
    ∃ e, parse text = .ok e ∧ e.expand r.meaning? value? = .ok formula := by
  rw [ofText] at h
  split at h
  · cases h
  · next e hparse =>
      split at h
      · cases h
      · next p hexpand =>
          cases h
          exact ⟨e, hparse, hexpand⟩

/-- A text has a formula if every call in it has the number of arguments that its name takes. -/
theorem exists_ofText {text : String} {e : Expr Float} (hparse : parse text = .ok e)
    (hfits : e.CallsFit fun f => (r.meaning? f).map Meaning.arity)
    (value? : Option (String → Float)) : ∃ formula, ofText text r value? = .ok formula := by
  obtain ⟨p, hp⟩ : ∃ p, e.expand r.meaning? value? = .ok p := Expr.exists_expand e hfits
  exact ⟨p, by simp only [ofText, hparse, hp]⟩

end Formula

theorem Reading.KeepsOperations.preservesMeaning (hkept : R.KeepsOperations r) (hR : R.Exact)
    (hrespects : R.Respects r) : R.PreservesMeaning r := by
  intro text value? formula h
  obtain ⟨e, hparse, hexpand⟩ := Formula.ofText_eq_ok h
  obtain ⟨p, hp⟩ := Expr.exists_expand_mapNumbers hexpand
    (value?.map fun value name => R.number (value name))
  refine ⟨e, p, hparse, hp, fun symbols hdefined => ?_⟩
  rw [← Expr.mapNumbers_mapNumbers] at hdefined ⊢
  obtain ⟨x, hx, hrepresents⟩ := Expr.represents_expand hR hrespects hkept _ hp hdefined
  rw [hx, Reading.valueOf, hrepresents.value_eq]

/-! ## Registries that leave the names alone -/

namespace Registry

/-- The names of kept operations are names of stock operators, so they mean the operation unless
they have been registered for something else. -/
theorem operation?_keptName {op : BinaryOp} (hop : op ∈ [BinaryOp.mul, .div, .pow])
    (hoperator : r.operator? (Polynomial.keptName op) = none)
    (hhelper : r.helper? (Polynomial.keptName op) = none) :
    r.operation? (Polynomial.keptName op) = some op := by
  rw [operation?, meaning?, hoperator, hhelper]
  cases op with
  | add => exact absurd hop (by decide)
  | sub => exact absurd hop (by decide)
  | mul => rfl
  | div => rfl
  | pow => rfl

omit [Coefficient K] in
theorem keepsOperations
    (hoperator : ∀ op ∈ [BinaryOp.mul, .div, .pow], r.operator? (Polynomial.keptName op) = none)
    (hhelper : ∀ op ∈ [BinaryOp.mul, .div, .pow], r.helper? (Polynomial.keptName op) = none) :
    R.KeepsOperations r :=
  fun op hop htaken =>
    absurd (operation?_keptName hop (hoperator op hop) (hhelper op hop)) htaken

end Registry

end SymbolicRegression
