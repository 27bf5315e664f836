import Mathlib
import SymbolicRegression.Proofs.Expansion.Formulas
import SymbolicRegression.Proofs.Expansion.Overflow
import SymbolicRegression.Proofs.Expansion.Rationals

/-!
# The names of kept operations

An operation that is not carried out is stored as a call of `mul`, `div` or `pow`, and from then on
it is the same atom as a call of that name in the text. Registries may give these names to functions
of their own. So expansion preserves meaning if and only if every such function computes the
operation whose name it has taken.

One direction is the theorem on formulas. For the other a text is found for each of the three
operations and for any two numbers: a power of two symbols is always kept, and a product or a
quotient is kept where the exponent of a third symbol, whose value is one, does not fit.
-/

namespace SymbolicRegression

variable {K F : Type} [Coefficient K] [Field F] {R : Reading K F} {r : Registry}
  {value? : Option (String → Float)} {symbols : String → F}

/-- Equal atoms are merged, and some double is read as the largest exponent. -/
structure Reading.Faithful (R : Reading K F) : Prop where
  atoms : ∀ a : Atom K, Coefficient.compareAtoms a a = .eq
  largest : ∃ v : Float, Coefficient.exponent? (R.number v) = some 2147483647 ∧
    R.toField (R.number v) ≠ 0

/-- Every operation in the expression can be carried out. The result is `p`, and `x` is the value of
both. -/
structure Expr.Computes (R : Reading K F) (r : Registry) (value? : Option (String → Float))
    (symbols : String → F) (e : Expr Float) (p : Polynomial K) (x : F) : Prop where
  fits : e.CallsFit fun f => (r.meaning? f).map Meaning.arity
  expand : (e.mapNumbers R.number).expand (R.meaning? r)
    (value?.map fun value name => R.number (value name)) = .ok p
  defined : (e.mapNumbers fun c => R.toField (R.number c)).Defined r
    (R.interpretation r value? symbols)
  value : (e.mapNumbers fun c => R.toField (R.number c)).value?
    (R.interpretation r value? symbols) = some x
  represents : Polynomial.Represents R (Atom.value R symbols) p x

/-- There are such readings. -/
theorem Rational.reading_faithful (r : Registry) : (reading r fun _ => 2147483647).Faithful where
  atoms a := if_pos rfl
  largest := by
    have hbound : |(2147483647 : ℚ).num| ≤ 2147483647 := by decide
    have hne : (2147483647 : ℚ) ≠ 0 := by norm_num
    exact ⟨0, if_pos ⟨rfl, hbound⟩, hne⟩

namespace Expr

theorem computes_symbol (hR : R.Exact) {n : String} (hn : Name.isConstant n = false) :
    Computes R r value? symbols (.name n) (Polynomial.ofAtom (.symbol n)) (symbols n) where
  fits := trivial
  expand := by
    cases value? with
    | none => rw [mapNumbers, Option.map_none, Expr.expand]
    | some value =>
        simp only [mapNumbers, Option.map_some, Expr.expand, hn, Bool.false_eq_true, if_false]
  defined := trivial
  value := by
    cases value? with
    | none => rw [mapNumbers, value?, Reading.interpretation]
    | some value =>
        simp only [mapNumbers, Expr.value?, Reading.interpretation, hn, Bool.false_eq_true, if_false]
  represents := Polynomial.represents_symbol hR n

theorem computes_constant (hR : R.Exact) {n : String} (hn : Name.isConstant n = true)
    {value : String → Float} :
    Computes R r (some value) symbols (.name n) (Polynomial.constant (R.number (value n)))
      (R.toField (R.number (value n))) where
  fits := trivial
  expand := by
    simp only [mapNumbers, Option.map_some, Expr.expand, hn, if_true]
  defined := trivial
  value := by
    simp only [mapNumbers, Expr.value?, Reading.interpretation, hn, if_true]
  represents := Polynomial.represents_constant hR _

theorem Computes.defined_binary {op : BinaryOp} {left right : Expr Float} {p q : Polynomial K}
    {x y : F} (hl : Computes R r value? symbols left p x)
    (hr : Computes R r value? symbols right q y) (hxy : op.Admits x y) :
    (mapNumbers (fun c => R.toField (R.number c)) (.binary op left right)).Defined r
      (R.interpretation r value? symbols) := by
  refine ⟨hl.defined, hr.defined, fun a b ha hb => ?_⟩
  rw [hl.value] at ha
  rw [hr.value] at hb
  cases ha
  cases hb
  exact hxy

theorem Computes.binary (hR : R.Exact) {op : BinaryOp} {left right : Expr Float}
    {p q s : Polynomial K} {x y : F} (hl : Computes R r value? symbols left p x)
    (hr : Computes R r value? symbols right q y) (hxy : op.Admits x y)
    (hs : Polynomial.binary? op p q = some s) :
    Computes R r value? symbols (.binary op left right) s (R.binary op x y) where
  fits := ⟨hl.fits, hr.fits⟩
  expand := by
    simp only [mapNumbers, Expr.expand, hl.expand, hr.expand, bind, Except.bind,
      Polynomial.binary, hs, Option.getD_some]
    rfl
  defined := hl.defined_binary hr hxy
  value := by
    simp only [mapNumbers, Expr.value?, hl.value, hr.value]
    rfl
  represents := Polynomial.represents_binary? hR hl.represents hr.represents hxy hs

/-- Where the operation of a text is kept, its name has to be read as the operation. -/
theorem Computes.function_keptName (hR : R.Exact) (hpreserves : R.PreservesMeaning r)
    {op : BinaryOp} {left right : Expr Float} {p q : Polynomial K} {x y : F} {text : String}
    (hparse : parse text = .ok (.binary op left right))
    (hl : Computes R r value? symbols left p x) (hr : Computes R r value? symbols right q y)
    (hxy : op.Admits x y) (hkept : Polynomial.binary? op p q = none) :
    R.function (Polynomial.keptName op) [x, y] = R.binary op x y := by
  obtain ⟨formula, hformula⟩ := Formula.exists_ofText hparse ⟨hl.fits, hr.fits⟩ value?
  obtain ⟨e, s, he, hs, hvalue⟩ := hpreserves text value? formula hformula
  rw [hparse] at he
  cases he
  simp only [mapNumbers, Expr.expand, hl.expand, hr.expand, bind, Except.bind,
    Polynomial.binary, hkept, Option.getD_none] at hs
  cases hs
  have heq := hvalue symbols (hl.defined_binary hr hxy)
  have hcall := Polynomial.represents_ofCall hR (Polynomial.keptName op)
    (.cons hl.represents (.cons hr.represents .nil))
  simp only [mapNumbers, Expr.value?, hl.value, hr.value, Reading.valueOf, hcall.value_eq] at heq
  exact (Option.some.inj heq).symm

end Expr

namespace Reading

/-! ## Texts whose operation is kept -/

/-- The values of the symbols in these texts: two are free, and all others are one. -/
def assignment (a b : F) (name : String) : F :=
  if name = "x2" then a else if name = "x3" then b else 1

variable {a b : F} {v : Float}

private theorem computes_x1 (hR : R.Exact) :
    Expr.Computes R r value? (assignment a b) (.name "x1") (Polynomial.ofAtom (.symbol "x1")) 1 :=
  Expr.computes_symbol hR (by cbv)

private theorem computes_x2 (hR : R.Exact) :
    Expr.Computes R r value? (assignment a b) (.name "x2") (Polynomial.ofAtom (.symbol "x2")) a :=
  Expr.computes_symbol hR (by cbv)

private theorem computes_x3 (hR : R.Exact) :
    Expr.Computes R r value? (assignment a b) (.name "x3") (Polynomial.ofAtom (.symbol "x3")) b :=
  Expr.computes_symbol hR (by cbv)

theorem PreservesMeaning.pow_eq (h : R.PreservesMeaning r) (hR : R.Exact)
    (hab : BinaryOp.pow.Admits a b) : R.function "pow" [a, b] = R.power a b := by
  have hparse : parse "x2^x3" = .ok (.binary .pow (.name "x2") (.name "x3")) := by cbv
  have hleft : Expr.Computes R r none (assignment a b) (.name "x2") _ a := computes_x2 hR
  exact hleft.function_keptName hR h hparse (computes_x3 hR) hab
    (Polynomial.pow_ofAtom_ofAtom hR _ _)

private theorem compareAtoms_ne (hR : R.Exact) {m n : String} (h : m ≠ n) :
    Coefficient.compareAtoms (Atom.symbol m : Atom K) (.symbol n) ≠ .eq := by
  intro heq
  cases hR.atoms _ _ heq
  exact h rfl

/-- A factor with the value `a` and with the largest exponent. -/
private theorem exists_largest (hR : R.Exact)
    (hv : Coefficient.exponent? (R.number v) = some 2147483647) (hne : R.toField (R.number v) ≠ 0) :
    ∃ p, Expr.Computes R r (some fun _ => v) (assignment a b)
        (.binary .mul (.name "x2") (.binary .pow (.name "x1") (.name "c1"))) p a ∧
      Polynomial.Holds R (.symbol "x1") 2147483647 p := by
  obtain ⟨c, hc, hpowInt⟩ :=
    Polynomial.powInt_ofAtom hR (n := 2147483647) (by decide) (by decide) (.symbol "x1")
  have hpow := (Polynomial.pow_ofAtom hR hv hne (.symbol "x1")).trans hpowInt
  obtain ⟨p, hp, hholds⟩ := Polynomial.exists_ofAtom_mul hR (d := 2147483647)
    (compareAtoms_ne hR (m := "x1") (n := "x2") (by decide)) hc (by decide) (by decide)
  have hconstant : Expr.Computes R r (some fun _ => v) (assignment a b) (.name "c1") _ _ :=
    Expr.computes_constant hR (by cbv)
  have hpower : Expr.Computes R r (some fun _ => v) (assignment a b)
      (.binary .pow (.name "x1") (.name "c1")) [([(.symbol "x1", 2147483647)], c)]
      (R.binary .pow 1 (R.toField (R.number v))) :=
    (computes_x1 hR).binary hR hconstant (fun _ _ _ => one_ne_zero) hpow
  have hone : R.binary .pow 1 (R.toField (R.number v)) = 1 := by
    rw [binary, hR.powerInt _ _ _ hv (fun _ => one_ne_zero), one_zpow]
  have hproduct : Expr.Computes R r (some fun _ => v) (assignment a b)
      (.binary .mul (.name "x2") (.binary .pow (.name "x1") (.name "c1"))) p (R.binary .mul a 1) :=
    (computes_x2 hR).binary hR (hone ▸ hpower) trivial hp
  rw [binary, mul_one] at hproduct
  exact ⟨p, hproduct, hholds⟩

theorem PreservesMeaning.mul_eq (h : R.PreservesMeaning r) (hR : R.Exact) (hfaithful : R.Faithful) :
    R.function "mul" [a, b] = a * b := by
  obtain ⟨v, hv, hne⟩ := hfaithful.largest
  have hparse : parse "x2*x1^c1*(x3*x1)" = .ok (.binary .mul
      (.binary .mul (.name "x2") (.binary .pow (.name "x1") (.name "c1")))
      (.binary .mul (.name "x3") (.name "x1"))) := by
    cbv
  obtain ⟨p, hleft, hp⟩ := exists_largest (r := r) (a := a) (b := b) hR hv hne
  have hone : R.toField Scalar.one ≠ 0 := by
    rw [hR.one]
    exact one_ne_zero
  obtain ⟨q, hmul, hq⟩ := Polynomial.exists_ofAtom_mul hR (d := 1)
    (compareAtoms_ne hR (m := "x1") (n := "x3") (by decide)) hone (by decide) (by decide)
  rw [← Polynomial.ofAtom_eq hR] at hmul
  have hright : Expr.Computes R r (some fun _ => v) (assignment a b)
      (.binary .mul (.name "x3") (.name "x1")) q (R.binary .mul b 1) :=
    (computes_x3 hR).binary hR (computes_x1 hR) trivial hmul
  rw [binary, mul_one] at hright
  exact hleft.function_keptName hR h hparse hright trivial
    (hp.mul_eq_none hR (hfaithful.atoms _) (by decide) hq)

theorem PreservesMeaning.div_eq (h : R.PreservesMeaning r) (hR : R.Exact) (hfaithful : R.Faithful)
    (hb : b ≠ 0) : R.function "div" [a, b] = a / b := by
  obtain ⟨v, hv, hne⟩ := hfaithful.largest
  have hparse : parse "x2*x1^c1/(x3/x1)" = .ok (.binary .div
      (.binary .mul (.name "x2") (.binary .pow (.name "x1") (.name "c1")))
      (.binary .div (.name "x3") (.name "x1"))) := by
    cbv
  obtain ⟨p, hleft, hp⟩ := exists_largest (r := r) (a := a) (b := b) hR hv hne
  obtain ⟨c, hc, hreciprocal⟩ :=
    Polynomial.powInt_ofAtom hR (n := -1) (by decide) (by decide) (.symbol "x1")
  obtain ⟨q, hmul, hq⟩ := Polynomial.exists_ofAtom_mul hR (d := -1)
    (compareAtoms_ne hR (m := "x1") (n := "x3") (by decide)) hc (by decide) (by decide)
  have hdiv : Polynomial.binary? .div (Polynomial.ofAtom (.symbol "x3"))
      (Polynomial.ofAtom (.symbol "x1")) = some q := by
    rw [Polynomial.binary?, Polynomial.div, hreciprocal, Option.bind_some, hmul]
  have hright : Expr.Computes R r (some fun _ => v) (assignment a b)
      (.binary .div (.name "x3") (.name "x1")) q (R.binary .div b 1) :=
    (computes_x3 hR).binary hR (computes_x1 hR) one_ne_zero hdiv
  rw [binary, div_one] at hright
  exact hleft.function_keptName hR h hparse hright hb
    (hp.div_eq_none hR (hfaithful.atoms _) (by decide) hq)

/-- Expansion preserves meaning where the names of kept operations are read as these operations, and
nowhere else. -/
theorem preservesMeaning_iff_keepsOperations (hR : R.Exact) (hrespects : R.Respects r) :
    (R.KeepsOperations r → R.PreservesMeaning r) ∧
      (R.Faithful → R.PreservesMeaning r → R.KeepsOperations r) := by
  refine ⟨fun hkept => hkept.preservesMeaning hR hrespects, fun hfaithful h => ?_⟩
  intro op hop _ a b hab
  cases op with
  | add => exact absurd hop (by decide)
  | sub => exact absurd hop (by decide)
  | mul => exact h.mul_eq hR hfaithful
  | div => exact h.div_eq hR hfaithful hab
  | pow => exact h.pow_eq hR hab

end Reading

/-- A registry without any functions of its own. -/
def Registry.plain : Registry :=
  Registry.empty "plain" .var

theorem Reading.preservesMeaning_plain :
    (Rational.reading .plain).KeepsOperations .plain ∧
      ∃ e p, parse "(x1 + x2)^x3/(x1 - x2)" = .ok e ∧
        (e.mapNumbers Rational.ofDouble).expand ((Rational.reading .plain).meaning? .plain) none =
          .ok p ∧
        (Rational.reading .plain).valueOf
          (fun name => if name = "x1" then 3 else if name = "x2" then 1 else 2) p = 8 := by
  have hkept : (Rational.reading .plain).KeepsOperations .plain :=
    Registry.keepsOperations (fun _ _ => rfl) (fun _ _ => rfl)
  have hpreserves := (preservesMeaning_iff_keepsOperations (Rational.reading_exact _)
    (Rational.reading_respects _)).1 hkept
  have hparse : parse "(x1 + x2)^x3/(x1 - x2)" = .ok (.binary .div
      (.binary .pow (.binary .add (.name "x1") (.name "x2")) (.name "x3"))
      (.binary .sub (.name "x1") (.name "x2"))) := by
    cbv
  obtain ⟨formula, hformula⟩ :=
    Formula.exists_ofText hparse ⟨⟨⟨trivial, trivial⟩, trivial⟩, trivial, trivial⟩ none
  obtain ⟨e, p, he, hp, hvalue⟩ := hpreserves _ none formula hformula
  refine ⟨hkept, e, p, he, hp, ?_⟩
  rw [hparse] at he
  cases he
  have hpower : (Rational.reading .plain).power 4 2 = 16 := by
    have hint := Rational.power_intCast 4 2
    norm_num at hint
    exact hint
  have hsum : (3 : ℚ) + 1 = 4 := by norm_num
  have hdifference : (3 : ℚ) - 1 = 2 := by norm_num
  have hquotient : (16 : ℚ) / 2 = 8 := by norm_num
  have heq := hvalue fun name => if name = "x1" then 3 else if name = "x2" then 1 else 2
  simp [Expr.mapNumbers, Expr.Defined, Expr.value?, BinaryOp.Admits, Reading.interpretation,
    Reading.binary, hsum, hdifference, hpower, hquotient] at heq
  exact heq.symm

/-! ## A registry that takes a name -/

namespace Polynomial

/-- A call of a name that has been taken is the same sum as the operation that is kept under it. -/
theorem call_keptName {op : BinaryOp} {p q : Polynomial K} (hkept : binary? op p q = none)
    (hp : constant? p = none) (apply : List K → K) :
    call (keptName op) ⟨.unknown, 2, apply⟩ [p, q] = binary op p q := by
  have harguments : [p, q].mapM constant? = none := by
    rw [List.mapM_cons, hp]
    rfl
  rw [binary, hkept, Option.getD_none]
  simp only [call, applied, harguments]

end Polynomial

namespace Expr

/-- A call of `pow` and a power expand alike where the name has been taken. -/
theorem expand_call_pow (hR : R.Exact) {apply : List K → K}
    (hmeaning : R.meaning? r "pow" = some ⟨.unknown, 2, apply⟩) (m n : String) :
    (call "pow" [name m, name n]).expand (R.meaning? r) none =
      .ok (Polynomial.ofAtom (Atom.ofCall "pow"
        [Polynomial.ofAtom (.symbol m), Polynomial.ofAtom (.symbol n)])) ∧
    (binary .pow (name m) (name n)).expand (R.meaning? r) none =
      .ok (Polynomial.ofAtom (Atom.ofCall "pow"
        [Polynomial.ofAtom (.symbol m), Polynomial.ofAtom (.symbol n)])) := by
  have hkept : Polynomial.binary? .pow (Polynomial.ofAtom (Atom.symbol m : Atom K))
      (Polynomial.ofAtom (.symbol n)) = none :=
    Polynomial.pow_ofAtom_ofAtom hR _ _
  have hconstant : Polynomial.constant? (Polynomial.ofAtom (Atom.symbol m : Atom K)) = none := by
    rw [Polynomial.ofAtom_eq hR]
    rfl
  have hbinary : (binary .pow (name m) (name n)).expand (R.meaning? r) none =
      .ok (Polynomial.ofAtom (Atom.ofCall "pow"
        [Polynomial.ofAtom (.symbol m), Polynomial.ofAtom (.symbol n)])) := by
    simp only [expand, bind, Except.bind, Polynomial.binary, hkept, Option.getD_none]
    rfl
  refine ⟨?_, hbinary⟩
  rw [← hbinary]
  have hcall := Polynomial.call_keptName hkept hconstant apply
  rw [Polynomial.keptName] at hcall
  simp only [expand, expandAll, hmeaning, bind, Except.bind, pure, Except.pure, hcall,
    List.length_cons, List.length_nil]
  rfl

/-- Their difference is nothing, whatever the name is read as. -/
theorem value_expand_sub_pow (hR : R.Exact) {apply : List K → K}
    (hmeaning : R.meaning? r "pow" = some ⟨.unknown, 2, apply⟩) (m n : String) :
    ∃ p, (binary .sub (call "pow" [name m, name n]) (binary .pow (name m) (name n))).expand
        (R.meaning? r) none = .ok p ∧
      ∀ symbols, R.valueOf symbols p = 0 := by
  obtain ⟨hcall, hpow⟩ := expand_call_pow hR hmeaning m n
  refine ⟨_, by rw [expand, hcall, hpow]; rfl, fun symbols => ?_⟩
  have hatom := Polynomial.represents_ofAtom (v := Atom.value R symbols) hR (Atom.ofCall "pow"
    [Polynomial.ofAtom (.symbol m), Polynomial.ofAtom (.symbol n)])
  have hdifference : Polynomial.Represents R (Atom.value R symbols) _ (R.binary .sub _ _) :=
    Polynomial.represents_binary? hR hatom hatom trivial rfl
  rw [Reading.binary, sub_self] at hdifference
  exact hdifference.value_eq

end Expr

/-- A registry whose helper `pow` adds. -/
def Registry.capturing : Registry :=
  { Registry.empty "capturing" .var with
    helpers := [⟨"pow", 2, fun values => values.foldl (· + ·) 0⟩] }

theorem Reading.loses_meaning_capturing :
    (Rational.reading .capturing).Exact ∧ (Rational.reading .capturing).Respects .capturing ∧
      ∃ e p, parse "pow(x1, x2) - x1^x2" = .ok e ∧
        (∃ formula, Formula.ofText "pow(x1, x2) - x1^x2" .capturing none = .ok formula) ∧
        (e.mapNumbers Rational.ofDouble).expand
          ((Rational.reading .capturing).meaning? .capturing) none = .ok p ∧
        (e.mapNumbers Rational.ofDouble).Defined .capturing
          ((Rational.reading .capturing).interpretation .capturing none fun _ => 1) ∧
        (e.mapNumbers Rational.ofDouble).value?
          ((Rational.reading .capturing).interpretation .capturing none fun _ => 1) = some 1 ∧
        (Rational.reading .capturing).valueOf (fun _ => 1) p = 0 := by
  have hR := Rational.reading_exact .capturing
  refine ⟨hR, Rational.reading_respects .capturing, ?_⟩
  have hparse : parse "pow(x1, x2) - x1^x2" = .ok (.binary .sub
      (.call "pow" [.name "x1", .name "x2"]) (.binary .pow (.name "x1") (.name "x2"))) := by
    cbv
  have hmeaning : ((Rational.reading .capturing).meaning? .capturing "pow") =
      some ⟨.unknown, 2, Rational.function .capturing "pow"⟩ := rfl
  have hhelper : Registry.capturing.meaning? "pow" =
      some ⟨.unknown, 2, fun values => values.foldl (· + ·) 0⟩ := rfl
  have hoperation : Registry.capturing.operation? "pow" = none := rfl
  have hfunction : (Rational.reading .capturing).function "pow" [1, 1] = 2 := by
    change Rational.function .capturing "pow" [1, 1] = 2
    simp only [Rational.function, hoperation, hhelper]
    norm_num
  have hpower : (Rational.reading .capturing).power 1 1 = 1 := by
    have hint := Rational.power_intCast 1 1
    norm_num at hint
    exact hint
  have hdifference : (2 : ℚ) - 1 = 1 := by norm_num
  obtain ⟨p, hexpand, hzero⟩ := Expr.value_expand_sub_pow hR hmeaning "x1" "x2"
  refine ⟨_, p, hparse,
    Formula.exists_ofText hparse ⟨⟨rfl, trivial, trivial, trivial⟩, trivial, trivial⟩ none,
    hexpand, ?_, ?_, hzero _⟩
  · simp [Expr.mapNumbers, Expr.mapNumbersAll, Expr.Defined, Expr.DefinedAll, Expr.value?,
      Expr.valuesAll?, Reading.interpretation, BinaryOp.Admits, hoperation]
  · simp [Expr.mapNumbers, Expr.mapNumbersAll, Expr.value?, Expr.valuesAll?,
      Reading.interpretation, Reading.binary, hhelper, hfunction, hpower, hdifference]

end SymbolicRegression
