import Mathlib.Data.List.Forall2
import SymbolicRegression.Proofs.Expansion.Arithmetic
import SymbolicRegression.Proofs.Expansion.Calls

/-!
# Expansion preserves meaning

The value of an expanded expression is the value of the expression, in exact arithmetic and wherever
the expression has a value. Every operation is either carried out, and then it computes, or it is kept
as an application of `mul`, `div` or `pow`.

Keeping an operation is the one place where expansion relies on a name. A kept product is the same
application as a call of `mul` on the same arguments, and a registry may have given the name to a
function of its own. So there is one condition, that the names of kept operations have not been given
away, or only to functions that compute the operation.
-/

namespace SymbolicRegression

variable {K F : Type} [Coefficient K] [Field F] {R : Reading K F} {r : Registry}
  {symbols : String → F}

/-! ## Values of atoms -/

namespace Atom

omit [Coefficient K] in
theorem valueOfFactors_eq (m : Monomial K) :
    valueOfFactors R symbols m = Monomial.value (value R symbols) m := by
  induction m with
  | nil => rw [valueOfFactors, Monomial.value_nil]
  | cons f m ih => rw [valueOfFactors, ih, Monomial.value_cons]

omit [Coefficient K] in
theorem valueOfTerms_eq (p : Polynomial K) :
    valueOfTerms R symbols p = R.valueOf symbols p := by
  induction p with
  | nil => rw [valueOfTerms, Reading.valueOf, Polynomial.value_nil]
  | cons t p ih =>
      rw [valueOfTerms, ih, valueOfFactors_eq, Reading.valueOf, Reading.valueOf,
        Polynomial.value_cons, Polynomial.termValue]

omit [Coefficient K] in
theorem valuesOfAll_eq (ps : List (Polynomial K)) :
    valuesOfAll R symbols ps = ps.map (R.valueOf symbols) := by
  induction ps with
  | nil => rw [valuesOfAll, List.map_nil]
  | cons p ps ih => rw [valuesOfAll, valueOfTerms_eq, ih, List.map_cons]

theorem value_ofGroup (p : Polynomial K) :
    value R symbols (ofGroup p) = p.value R.toField (value R symbols) := by
  rw [ofGroup, value, valueOfTerms_eq, Reading.valueOf]

theorem value_ofCall (name : String) (ps : List (Polynomial K)) :
    value R symbols (ofCall name ps) = R.function name (ps.map (R.valueOf symbols)) := by
  rw [ofCall, value, valuesOfAll_eq]

end Atom

/-! ## Operations -/

/-- The name under which each operation may be kept is read as that operation, unless the registry
takes calls of the name for the operation anyway. Sums and differences are never kept. -/
def Reading.KeepsOperations (R : Reading K F) (r : Registry) : Prop :=
  ∀ op ∈ [BinaryOp.mul, .div, .pow], r.operation? (Polynomial.keptName op) ≠ some op →
    ∀ a b, op.Admits a b → R.function (Polynomial.keptName op) [a, b] = R.binary op a b

namespace Polynomial

omit [Coefficient K] in
theorem map_valueOf_eq {ps : List (Polynomial K)} {xs : List F}
    (h : List.Forall₂ (Represents R (Atom.value R symbols)) ps xs) :
    ps.map (R.valueOf symbols) = xs := by
  induction h with
  | nil => rfl
  | cons hp _ ih => rw [List.map_cons, ih, Reading.valueOf, hp.value_eq]

omit [Coefficient K] in
theorem function_keptName (hrespects : R.Respects r) (hkept : R.KeepsOperations r) {op : BinaryOp}
    (hop : op ∈ [BinaryOp.mul, .div, .pow]) {a b : F} (hab : op.Admits a b) :
    R.function (keptName op) [a, b] = R.binary op a b := by
  by_cases htaken : r.operation? (keptName op) = some op
  · exact hrespects.binary _ op htaken a b
  · exact hkept op hop htaken a b hab

theorem represents_symbol (hR : R.Exact) (n : String) :
    Represents R (Atom.value R symbols) (ofAtom (.symbol n)) (symbols n) := by
  have hatom := represents_ofAtom (v := Atom.value R symbols) hR (.symbol n)
  rwa [Atom.value] at hatom

theorem represents_ofCall (hR : R.Exact) (name : String) {ps : List (Polynomial K)} {xs : List F}
    (hps : List.Forall₂ (Represents R (Atom.value R symbols)) ps xs) :
    Represents R (Atom.value R symbols) (ofAtom (Atom.ofCall name ps)) (R.function name xs) := by
  have hatom := represents_ofAtom (v := Atom.value R symbols) hR (Atom.ofCall name ps)
  rwa [Atom.value_ofCall, map_valueOf_eq hps] at hatom

theorem represents_binary? (hR : R.Exact) {op : BinaryOp} {p q s : Polynomial K} {x y : F}
    (hp : Represents R (Atom.value R symbols) p x) (hq : Represents R (Atom.value R symbols) q y)
    (hxy : op.Admits x y) (h : binary? op p q = some s) :
    Represents R (Atom.value R symbols) s (R.binary op x y) := by
  cases op with
  | add =>
      cases h
      exact hp.add hR hq
  | sub =>
      cases h
      rw [Reading.binary, sub_eq_add_neg]
      exact hp.add hR (hq.neg hR)
  | mul => exact hp.mul hR hq h
  | div => exact hp.div hR Atom.value_ofGroup hq hxy h
  | pow => exact hp.pow hR Atom.value_ofGroup hq hxy h

/-- An operation is carried out, or kept under a name that is read as the operation. -/
theorem represents_binary (hR : R.Exact) (hrespects : R.Respects r)
    (hkept : R.KeepsOperations r) {op : BinaryOp} {p q : Polynomial K} {x y : F}
    (hp : Represents R (Atom.value R symbols) p x) (hq : Represents R (Atom.value R symbols) q y)
    (hxy : op.Admits x y) :
    Represents R (Atom.value R symbols) (binary op p q) (R.binary op x y) := by
  rw [binary]
  cases hs : binary? op p q with
  | some s => exact represents_binary? hR hp hq hxy hs
  | none =>
      have hop : op ∈ [BinaryOp.mul, .div, .pow] := by
        cases op with
        | add => cases hs
        | sub => cases hs
        | mul => decide
        | div => decide
        | pow => decide
      rw [Option.getD_none, ← function_keptName hrespects hkept hop hxy]
      exact represents_ofCall hR _ (.cons hp (.cons hq .nil))

/-! ## Calls -/

theorem toField_constants (hR : R.Exact) {v : Atom K → F} :
    ∀ {ps : List (Polynomial K)} {xs : List F} {values : List K},
      List.Forall₂ (Represents R v) ps xs → ps.mapM constant? = some values →
      values.map R.toField = xs
  | [], _, values, .nil, h => by
      rw [List.mapM_nil] at h
      cases h
      rfl
  | p :: ps, _, values, .cons hp hps, h => by
      rw [List.mapM_cons] at h
      obtain ⟨c, hc, h⟩ := Option.bind_eq_some_iff.mp h
      obtain ⟨cs, hcs, h⟩ := Option.bind_eq_some_iff.mp h
      cases h
      rw [List.map_cons, hp.of_constant? hR hc, toField_constants hR hps hcs]

/-- A function is computed from numbers or stays applied; both are read alike. -/
theorem represents_applied (hR : R.Exact) (name : String) {ps : List (Polynomial K)}
    {xs : List F} (hps : List.Forall₂ (Represents R (Atom.value R symbols)) ps xs) :
    Represents R (Atom.value R symbols) (applied name (R.fold name) ps)
      (R.function name xs) := by
  rw [applied]
  split
  · next values hvalues =>
      rw [← toField_constants hR hps hvalues, ← hR.function]
      exact represents_constant hR _
  · exact represents_ofCall hR name hps

section Call

variable {name : String} {arithmetic : Arithmetic} {arity : Nat} {apply : List K → K}

theorem call_eq_binary {op : BinaryOp} (h : arithmetic.binary? = some op)
    (p q : Polynomial K) : call name ⟨arithmetic, arity, apply⟩ [p, q] = binary op p q := by
  cases arithmetic with
  | add => cases h; rfl
  | sub => cases h; rfl
  | mul => cases h; rfl
  | div => cases h; rfl
  | pow => cases h; rfl
  | neg => cases h
  | unknown => cases h

/-- Arithmetic with another number of operands is none. -/
theorem call_eq_applied {ps : List (Polynomial K)}
    (hbinary : ∀ op, arithmetic.binary? = some op → ps.length ≠ 2)
    (hneg : arithmetic = .neg → ps.length ≠ 1) :
    call name ⟨arithmetic, arity, apply⟩ ps = applied name apply ps := by
  rw [call.eq_def]
  split
  · next h => exact absurd rfl (hbinary .add (congrArg Arithmetic.binary? h))
  · next h => exact absurd rfl (hbinary .sub (congrArg Arithmetic.binary? h))
  · next h => exact absurd rfl (hbinary .mul (congrArg Arithmetic.binary? h))
  · next h => exact absurd rfl (hbinary .div (congrArg Arithmetic.binary? h))
  · next h => exact absurd rfl (hbinary .pow (congrArg Arithmetic.binary? h))
  · next h => exact absurd rfl (hneg h)
  · rfl

end Call

/-- A call has the value of its function on the values of its arguments, whether it is expanded as
arithmetic, computed or left applied. -/
theorem represents_call (hR : R.Exact) (hrespects : R.Respects r) (hkept : R.KeepsOperations r)
    {name : String} {m : Meaning Float} (hm : r.meaning? name = some m)
    {ps : List (Polynomial K)} {xs : List F} (harity : m.arity = ps.length)
    (hps : List.Forall₂ (Represents R (Atom.value R symbols)) ps xs)
    (hxs : ∀ op a b, r.operation? name = some op → xs = [a, b] → op.Admits a b) :
    Represents R (Atom.value R symbols) (call name ⟨m.arithmetic, m.arity, R.fold name⟩ ps)
      (R.function name xs) := by
  by_cases hbinary : ∃ op, m.arithmetic.binary? = some op ∧ ps.length = 2
  · obtain ⟨op, hop, htwo⟩ := hbinary
    have hoperation : r.operation? name = some op := by
      rw [Registry.operation?, hm]
      simp only [harity, htwo, if_true, hop]
    match ps, xs, hps, htwo with
    | [p, q], [x, y], .cons hp (.cons hq .nil), _ =>
        rw [call_eq_binary hop, hrespects.binary name op hoperation]
        exact represents_binary hR hrespects hkept hp hq (hxs op x y hoperation rfl)
  · by_cases hneg : m.arithmetic = .neg ∧ ps.length = 1
    · obtain ⟨hneg, hone⟩ := hneg
      match ps, xs, hps, hone with
      | [p], [x], .cons hp .nil, _ =>
          rw [hrespects.neg name m hm hneg harity, hneg]
          exact hp.neg hR
    · rw [call_eq_applied (fun op hop htwo => hbinary ⟨op, hop, htwo⟩)
        (fun h hone => hneg ⟨h, hone⟩)]
      exact represents_applied hR name hps

end Polynomial

/-! ## Expressions -/

namespace Expr

variable {value? : Option (String → Float)}

omit [Field F] in
theorem length_of_expandAll {meaning? : String → Option (Meaning K)}
    {substituted? : Option (String → K)} {es : List (Expr K)} :
    ∀ {ps : List (Polynomial K)},
      expandAll meaning? substituted? es = .ok ps → ps.length = es.length := by
  induction es with
  | nil =>
      intro ps h
      rw [expandAll] at h
      cases h
      rfl
  | cons e es ih =>
      intro ps h
      rw [expandAll] at h
      obtain ⟨q, -, h⟩ := bind_eq_ok h
      obtain ⟨qs, hes, heq⟩ := bind_eq_ok h
      cases heq
      rw [List.length_cons, ih hes, List.length_cons]

/-- A name is a symbol, or the number that is put in its place. -/
theorem represents_name (hR : R.Exact) {n : String} {p : Polynomial K}
    (h : (name n).expand (R.meaning? r) (value?.map fun value name => R.number (value name)) =
      .ok p) :
    ∃ x, (name n).value? (R.interpretation r value? symbols) = some x ∧
      Polynomial.Represents R (Atom.value R symbols) p x := by
  rw [Expr.value?]
  cases value? with
  | none =>
      rw [Option.map_none, expand] at h
      cases h
      exact ⟨symbols n, rfl, Polynomial.represents_symbol hR n⟩
  | some value =>
      rw [Option.map_some, expand] at h
      cases h
      simp only [Reading.interpretation]
      split
      · exact ⟨_, rfl, Polynomial.represents_constant hR _⟩
      · exact ⟨_, rfl, Polynomial.represents_symbol hR n⟩

mutual

theorem represents_expand (hR : R.Exact) (hrespects : R.Respects r)
    (hkept : R.KeepsOperations r) :
    ∀ (e : Expr K) {p : Polynomial K},
      e.expand (R.meaning? r) (value?.map fun value name => R.number (value name)) = .ok p →
      (e.mapNumbers R.toField).Defined r (R.interpretation r value? symbols) →
      ∃ x, (e.mapNumbers R.toField).value? (R.interpretation r value? symbols) = some x ∧
        Polynomial.Represents R (Atom.value R symbols) p x
  | .number c, p, h, _ => by
      rw [expand] at h
      cases h
      exact ⟨R.toField c, by rw [mapNumbers, Expr.value?], Polynomial.represents_constant hR c⟩
  | .name n, p, h, _ => by
      rw [mapNumbers]
      exact represents_name hR h
  | .neg e, p, h, hdefined => by
      rw [expand] at h
      obtain ⟨q, he, heq⟩ := bind_eq_ok h
      cases heq
      obtain ⟨x, hx, hq⟩ := represents_expand hR hrespects hkept e he hdefined
      exact ⟨-x, by rw [mapNumbers, Expr.value?, hx]; rfl, hq.neg hR⟩
  | .binary op left right, p, h, hdefined => by
      rw [expand] at h
      obtain ⟨hleft, hright, hadmits⟩ := hdefined
      obtain ⟨q, hl, h⟩ := bind_eq_ok h
      obtain ⟨s, hr, heq⟩ := bind_eq_ok h
      cases heq
      obtain ⟨x, hx, hq⟩ := represents_expand hR hrespects hkept left hl hleft
      obtain ⟨y, hy, hs⟩ := represents_expand hR hrespects hkept right hr hright
      refine ⟨R.binary op x y, by rw [mapNumbers, Expr.value?, hx, hy]; rfl, ?_⟩
      exact Polynomial.represents_binary hR hrespects hkept hq hs (hadmits x y hx hy)
  | .call f arguments, p, h, hdefined => by
      rw [expand] at h
      obtain ⟨hall, hadmits⟩ := hdefined
      split at h
      · cases h
      · next meaning hmeaning =>
          obtain ⟨m, hm, rfl⟩ := Option.map_eq_some_iff.mp hmeaning
          split at h
          · cases h
          · next harity =>
              obtain ⟨ps, hes, heq⟩ := bind_eq_ok h
              cases heq
              obtain ⟨xs, hxs, hps⟩ := represents_expandAll hR hrespects hkept arguments hes hall
              have hlength : m.arity = ps.length := by
                rw [not_not.mp harity, length_of_expandAll hes]
              refine ⟨R.function f xs, ?_, ?_⟩
              · rw [mapNumbers, Expr.value?, hxs]
                simp only [Reading.interpretation, hm, Option.map_some]
              · refine Polynomial.represents_call hR hrespects hkept hm hlength hps ?_
                rintro op a b hop rfl
                exact hadmits op a b hop hxs

theorem represents_expandAll (hR : R.Exact) (hrespects : R.Respects r)
    (hkept : R.KeepsOperations r) :
    ∀ (es : List (Expr K)) {ps : List (Polynomial K)},
      expandAll (R.meaning? r) (value?.map fun value name => R.number (value name)) es = .ok ps →
      DefinedAll r (R.interpretation r value? symbols) (mapNumbersAll R.toField es) →
      ∃ xs, valuesAll? (R.interpretation r value? symbols) (mapNumbersAll R.toField es) =
          some xs ∧
        List.Forall₂ (Polynomial.Represents R (Atom.value R symbols)) ps xs
  | [], ps, h, _ => by
      rw [expandAll] at h
      cases h
      exact ⟨[], by rw [mapNumbersAll, valuesAll?], .nil⟩
  | e :: es, ps, h, hdefined => by
      rw [expandAll] at h
      obtain ⟨q, he, h⟩ := bind_eq_ok h
      obtain ⟨qs, hes, heq⟩ := bind_eq_ok h
      cases heq
      obtain ⟨x, hx, hq⟩ := represents_expand hR hrespects hkept e he hdefined.1
      obtain ⟨xs, hxs, hqs⟩ := represents_expandAll hR hrespects hkept es hes hdefined.2
      exact ⟨x :: xs, by rw [mapNumbersAll, valuesAll?, hx, hxs], .cons hq hqs⟩

end

end Expr

end SymbolicRegression
