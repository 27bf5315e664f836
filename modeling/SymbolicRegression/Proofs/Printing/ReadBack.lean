import SymbolicRegression.Proofs.Expansion.Meaning
import SymbolicRegression.Proofs.Printing.LikeTerms
import SymbolicRegression.Proofs.Printing.Readable

/-!
# A printed formula means what it prints

The text of an expanded expression is an expression again, and its value is that of the sum of
monomials with every coefficient rounded as it is printed. The proof goes up from the atoms: once the
atoms of a sum are read as their values, so are its powers, its terms and the sum, and with it the
call or the group that holds it. What is left to check for one term is arithmetic: factors below the
bar have negative exponents, the label is the rounded magnitude, and where it is left out it is one.
-/

namespace SymbolicRegression

variable {F : Type} [Field F]

/-! ## Rounded sums -/

namespace Atom

mutual

/-- The atom with every coefficient in it replaced, however deeply it is nested. -/
def mapCoefficients (f : Float → Float) : Atom Float → Atom Float
  | .symbol name => .symbol name
  | .call key name arguments => .call key name (mapSums f arguments)
  | .group key body => .group key (mapTerms f body)

def mapSums (f : Float → Float) :
    List (List (List (Atom Float × Int) × Float)) → List (List (List (Atom Float × Int) × Float))
  | [] => []
  | p :: ps => mapTerms f p :: mapSums f ps

def mapTerms (f : Float → Float) :
    List (List (Atom Float × Int) × Float) → List (List (Atom Float × Int) × Float)
  | [] => []
  | (m, c) :: p => (mapFactors f m, f c) :: mapTerms f p

def mapFactors (f : Float → Float) : List (Atom Float × Int) → List (Atom Float × Int)
  | [] => []
  | (a, e) :: m => (mapCoefficients f a, e) :: mapFactors f m

end

end Atom

/-- The sum with every coefficient rounded as it is printed, at every depth. -/
def Formula.rounded (p : Formula) : Formula :=
  Atom.mapTerms (fun c => Number.roundTo c printedDecimals) p

/-- Numbers are read after a change. -/
def Reading.after (R : Reading Float F) (f : Float → Float) : Reading Float F :=
  { R with toField := fun c => R.toField (f c) }

namespace Atom

variable (R : Reading Float F) (symbols : String → F) (f : Float → Float)

mutual

theorem value_mapCoefficients : ∀ a : Atom Float,
    value R symbols (mapCoefficients f a) = value (R.after f) symbols a
  | .symbol name => by rw [mapCoefficients, value, value]
  | .call key name arguments => by
      rw [mapCoefficients, value, value, valuesOfAll_mapSums arguments]
      rfl
  | .group key body => by
      rw [mapCoefficients, value, value, valueOfTerms_mapTerms body]

theorem valuesOfAll_mapSums : ∀ ps : List (List (List (Atom Float × Int) × Float)),
    valuesOfAll R symbols (mapSums f ps) = valuesOfAll (R.after f) symbols ps
  | [] => by rw [mapSums, valuesOfAll, valuesOfAll]
  | p :: ps => by
      rw [mapSums, valuesOfAll, valuesOfAll, valueOfTerms_mapTerms p, valuesOfAll_mapSums ps]

theorem valueOfTerms_mapTerms : ∀ p : List (List (Atom Float × Int) × Float),
    valueOfTerms R symbols (mapTerms f p) = valueOfTerms (R.after f) symbols p
  | [] => by rw [mapTerms, valueOfTerms, valueOfTerms]
  | (m, c) :: p => by
      rw [mapTerms, valueOfTerms, valueOfTerms, valueOfFactors_mapFactors m,
        valueOfTerms_mapTerms p]
      rfl

theorem valueOfFactors_mapFactors : ∀ m : List (Atom Float × Int),
    valueOfFactors R symbols (mapFactors f m) = valueOfFactors (R.after f) symbols m
  | [] => by rw [mapFactors, valueOfFactors, valueOfFactors]
  | (a, e) :: m => by
      rw [mapFactors, valueOfFactors, valueOfFactors, value_mapCoefficients a,
        valueOfFactors_mapFactors m]

end

/-- All exponents in the atom are of at most this magnitude, however deeply they are nested. -/
inductive ExponentsWithin (bound : ℕ) : Atom Float → Prop
  | symbol {name : String} : ExponentsWithin bound (.symbol name)
  | call {key name : String} {arguments : List Formula}
      (hexponents : ∀ p ∈ arguments, ∀ t ∈ p, ∀ f ∈ t.1, f.2.natAbs ≤ bound)
      (hatoms : ∀ p ∈ arguments, ∀ t ∈ p, ∀ f ∈ t.1, ExponentsWithin bound f.1) :
      ExponentsWithin bound (.call key name arguments)
  | group {key : String} {body : Formula}
      (hexponents : ∀ t ∈ body, ∀ f ∈ t.1, f.2.natAbs ≤ bound)
      (hatoms : ∀ t ∈ body, ∀ f ∈ t.1, ExponentsWithin bound f.1) :
      ExponentsWithin bound (.group key body)

end Atom

structure Polynomial.ExponentsWithin (bound : ℕ) (p : Formula) : Prop where
  exponents : ∀ t ∈ p, ∀ f ∈ t.1, f.2.natAbs ≤ bound
  atoms : ∀ t ∈ p, ∀ f ∈ t.1, f.1.ExponentsWithin bound

/-- Numbers are read as their exact values, and powers with natural exponents are those of the
field. -/
structure Reading.Literal (R : Reading Float F) : Prop where
  toField : ∀ c, R.toField c = ((Rational.ofDouble c : ℚ) : F)
  power : ∀ (a : F) (n : ℕ), R.power a n = a ^ n

variable {R : Reading Float F} {symbols : String → F}

theorem Reading.Literal.toField_eq (hR : R.Literal) {v : Float} {n : ℕ}
    (h : Rational.ofDouble v = n) : R.toField v = n := by
  rw [hR.toField, h, Rat.cast_natCast]

/-! ## Terms -/

namespace Monomial

/-- The values of the powers that are kept. -/
def powerValues (v : Atom Float → F) (keep : Int → Bool) (m : Monomial Float) : List F :=
  (m.filter fun f => keep f.2).map fun f => v f.1 ^ f.2.natAbs

variable {v : Atom Float → F} {m : Monomial Float}

theorem powerValues_cons (keep : Int → Bool) (f : Atom Float × Int) :
    powerValues v keep (f :: m) =
      if keep f.2 then v f.1 ^ f.2.natAbs :: powerValues v keep m else powerValues v keep m := by
  rw [powerValues, List.filter_cons]
  split
  · rfl
  · rfl

/-- The factors with negative exponents are a divisor. -/
theorem value_eq_div (v : Atom Float → F) (m : Monomial Float) :
    value v m =
      (powerValues v (fun e => 0 < e) m).prod / (powerValues v (fun e => e ≤ 0) m).prod := by
  induction m with
  | nil => simp [powerValues]
  | cons f m ih =>
      rw [value_cons, ih, powerValues_cons, powerValues_cons]
      rcases lt_or_ge 0 f.2 with hpos | hneg
      · have hpow : v f.1 ^ f.2 = v f.1 ^ f.2.natAbs := by
          rw [← zpow_natCast, Int.natAbs_of_nonneg hpos.le]
        rw [decide_eq_true hpos, decide_eq_false hpos.not_ge, if_pos rfl,
          if_neg Bool.false_ne_true, List.prod_cons, hpow, mul_div_assoc]
      · have hpow : v f.1 ^ f.2 = (v f.1 ^ f.2.natAbs)⁻¹ := by
          rw [← zpow_natCast, ← zpow_neg, Int.natCast_natAbs, abs_of_nonpos hneg, neg_neg]
        rw [decide_eq_true hneg, decide_eq_false hneg.not_gt, if_pos rfl,
          if_neg Bool.false_ne_true, List.prod_cons, hpow, div_mul_eq_div_div_swap,
          div_eq_mul_inv _ (v f.1 ^ f.2.natAbs), mul_comm]

theorem powersRead (hR : R.Literal) (hatoms : ∀ f ∈ m, AtomReads R symbols f.1.key.toList (v f.1))
    (hexponents : ∀ f ∈ m, f.2.natAbs ≤ 2147483647) (keep : Int → Bool) :
    PowersRead R symbols (Polynomial.powers keep m) (powerValues v keep m) := by
  rw [Polynomial.powers, powerValues, PowersRead, List.forall₂_map_left_iff,
    List.forall₂_map_right_iff, List.forall₂_same]
  intro f hf
  have hmem := (List.mem_filter.mp hf).1
  obtain ⟨x, hx, hvalue⟩ := Number.exists_toDigits (n := f.2.natAbs)
    (lt_of_le_of_lt (hexponents f hmem) (by decide))
  refine (hatoms f hmem).power (f := (f.1.key, f.2.natAbs)) hx ?_
  rw [hR.toField_eq hvalue, hR.power]

end Monomial

/-- Numbers are read as they are printed. -/
def Reading.printed (R : Reading Float F) : Reading Float F :=
  R.after fun c => Number.roundTo c printedDecimals

/-- The label of a coefficient with the sign in front is the rounded coefficient. -/
theorem Reading.Literal.toField_printed (hR : R.Literal) {c v : Float}
    (h : Rational.ofDouble (Number.roundTo c printedDecimals) =
      (if Scalar.lt c Scalar.zero then -1 else 1) * Rational.ofDouble v) :
    R.printed.toField c = (if Scalar.lt c Scalar.zero then -1 else 1) * R.toField v := by
  show R.toField (Number.roundTo c printedDecimals) = _
  rw [hR.toField, hR.toField, h]
  split
  · rw [neg_one_mul, neg_one_mul, Rat.cast_neg]
  · rw [one_mul, one_mul]

theorem atomReads_toDigits (hR : R.Literal) {n : ℕ} (hlt : n < 2 ^ 53) :
    AtomReads R symbols (Nat.toDigits 10 n) n := by
  obtain ⟨x, hx, hvalue⟩ := Number.exists_toDigits hlt
  rw [← hR.toField_eq hvalue]
  exact atomReads_numeral (isNumeral_toDigits n) hx

namespace Polynomial

variable {p : Formula} {t : Monomial Float × Float} {v : Atom Float → F}

/-- A term is read as its rounded coefficient times its monomial. -/
theorem termReads (hR : R.Literal) (hfinite : t.2.isFinite = true)
    (hatoms : ∀ f ∈ t.1, AtomReads R symbols f.1.key.toList (v f.1))
    (hexponents : ∀ f ∈ t.1, f.2.natAbs ≤ 2147483647) :
    TermReads R symbols (termLayout t) (termValue R.printed.toField v t) := by
  obtain ⟨hnumeral, x, hx, hvalue⟩ := Number.exists_label hfinite
  have hlabel : AtomReads R symbols (labelOf t).toList (R.toField x) :=
    atomReads_numeral hnumeral hx
  have habove := Monomial.powersRead hR hatoms hexponents fun e => decide (0 < e)
  have hbelow := Monomial.powersRead hR hatoms hexponents fun e => decide (e ≤ 0)
  have hterm : termValue R.printed.toField v t =
      (if (termLayout t).negative then -1 else 1) *
        (R.toField x * (Monomial.powerValues v (fun e => decide (0 < e)) t.1).prod /
          (Monomial.powerValues v (fun e => decide (e ≤ 0)) t.1).prod) := by
    rw [termValue, hR.toField_printed hvalue, Monomial.value_eq_div, mul_assoc, mul_div_assoc]
    rfl
  refine ⟨_, ?_, hterm⟩
  rcases above_termLayout t with hshown | ⟨hone, hne, hshown⟩
  · have hpowers : PowersRead R symbols (termLayout t).above
        (R.toField x :: Monomial.powerValues v (fun e => decide (0 < e)) t.1) := by
      rw [hshown]
      refine .cons ?_ habove
      rw [TermLayout.powerText_one]
      exact hlabel.bare
    have hfraction := fractionReads (by rw [hshown]; exact List.cons_ne_nil _ _) hpowers hbelow
    rwa [List.prod_cons] at hfraction
  · -- a label of one that is left out
    have hx' : R.toField x = 1 := by
      obtain ⟨y, hy, hone'⟩ := Number.exists_toDigits (n := 1) (by decide)
      have hlabel : (labelOf t).toList = Nat.toDigits 10 1 := by
        rw [hone]
        decide
      have heq : x = y := Option.some.inj (hx.symm.trans ((congrArg _ hlabel).trans hy))
      rw [heq, hR.toField_eq hone', Nat.cast_one]
    rw [hx', one_mul]
    exact fractionReads (by rw [hshown]; exact hne) (by rw [hshown]; exact habove) hbelow

/-- The empty sum is printed as a zero. -/
theorem sumReads_zero (hR : R.Literal) :
    SumReads R symbols ([' '].intercalate (TermLayout.parts [⟨false, [("0", 1)], []⟩])) 0 := by
  have hzero : PowerReads R symbols (TermLayout.powerText ("0", 1)) 0 := by
    rw [TermLayout.powerText_one, ← Nat.cast_zero]
    exact (atomReads_toDigits hR (n := 0) (by decide)).bare
  have hfraction := fractionReads (t := ⟨false, [("0", 1)], []⟩) (List.cons_ne_nil _ _)
    (.cons hzero .nil) .nil
  have hsum := sumReads_parts (List.cons_ne_nil _ []) (.cons ⟨_, hfraction, rfl⟩ .nil)
  simpa using hsum

theorem sumReads_text (hR : R.Literal) (hfinite : ∀ t ∈ p, t.2.isFinite = true)
    (hatoms : ∀ t ∈ p, ∀ f ∈ t.1, AtomReads R symbols f.1.key.toList (v f.1))
    (hexponents : ∀ t ∈ p, ∀ f ∈ t.1, f.2.natAbs ≤ 2147483647) :
    SumReads R symbols (text p).toList (p.value R.printed.toField v) := by
  rw [toList_text]
  by_cases hnil : p = []
  · subst hnil
    exact sumReads_zero hR
  · have hperm : (printedOrder p).Perm p :=
      List.perm_append_comm.trans (List.filter_append_perm _ p)
    rw [layout_eq_map hnil, ← value_perm hperm]
    refine sumReads_parts (by simpa [printedOrder_eq_nil] using hnil) ?_
    rw [List.forall₂_map_left_iff, List.forall₂_map_right_iff, List.forall₂_same]
    intro t ht
    have hmem := mem_printedOrder.mp ht
    exact termReads hR (hfinite t hmem) (hatoms t hmem) (hexponents t hmem)

end Polynomial

/-! ## Atoms -/

theorem Atom.ExponentsWithin.arguments {bound : ℕ} {key name : String} {ps : List Formula}
    (h : (Atom.call key name ps).ExponentsWithin bound) :
    ∀ p ∈ ps, p.ExponentsWithin bound := by
  cases h with
  | call hexponents hatoms => exact fun p hp => ⟨hexponents p hp, hatoms p hp⟩

theorem Atom.ExponentsWithin.body {bound : ℕ} {key : String} {p : Formula}
    (h : (Atom.group key p).ExponentsWithin bound) : p.ExponentsWithin bound := by
  cases h with
  | group hexponents hatoms => exact ⟨hexponents, hatoms⟩

/-- A built atom is read as its value. -/
theorem Atom.Built.reads (hR : R.Literal) {a : Atom Float} (ha : a.Built)
    (hfinite : a.Over fun c => c.isFinite = true) (hexponents : a.ExponentsWithin 2147483647) :
    AtomReads R symbols a.key.toList (Atom.value R.printed symbols a) := by
  induction ha with
  | symbol hname => exact atomReads_name hname
  | @call name ps hname _ _ ih =>
      rw [toList_key_ofCall, value_ofCall]
      refine atomReads_call hname ?_
      rw [List.forall₂_map_left_iff, List.forall₂_map_right_iff, List.forall₂_same]
      intro p hp
      have hover := hfinite.arguments p hp
      have hwithin := hexponents.arguments p hp
      exact Polynomial.sumReads_text hR hover.coefficients (fun t ht f hf =>
        ih p hp t ht f hf (hover.atoms t ht f hf) (hwithin.atoms t ht f hf)) hwithin.exponents
  | @group body _ _ _ ih =>
      have hover := hfinite.body
      have hwithin := hexponents.body
      rw [toList_key_ofGroup, ← Polynomial.toList_text, value_ofGroup]
      exact (Polynomial.sumReads_text hR hover.coefficients (fun t ht f hf =>
        ih t ht f hf (hover.atoms t ht f hf) (hwithin.atoms t ht f hf)) hwithin.exponents).parens

theorem Polynomial.Built.reads (hR : R.Literal) {p : Formula} (hp : p.Built)
    (hfinite : p.Over fun c => c.isFinite = true) (hexponents : p.ExponentsWithin 2147483647) :
    SumReads R symbols (text p).toList (R.valueOf symbols p.rounded) := by
  have hvalue : R.valueOf symbols p.rounded =
      p.value R.printed.toField (Atom.value R.printed symbols) := by
    rw [← Atom.valueOfTerms_eq, Formula.rounded, Atom.valueOfTerms_mapTerms, Atom.valueOfTerms_eq]
    rfl
  rw [hvalue]
  exact sumReads_text hR hfinite.coefficients (fun t ht f hf => (hp.atoms t ht f hf).reads hR
    (hfinite.atoms t ht f hf) (hexponents.atoms t ht f hf)) hexponents.exponents

/-! ## Formulas -/

open SymbolicRegression.Polynomial

theorem SumReads.parse {text : String} {x : F} (h : SumReads R symbols text.toList x) :
    ∃ e, parse text = .ok e ∧ Means R symbols e x := by
  obtain ⟨s, hs⟩ := h
  have hlexes := hs.writes.append_mark Lexer.ends_nil Lexer.lexes_nil
  rw [List.append_nil, List.append_nil] at hlexes
  exact ⟨s.expr, parse_eq_ok_of_lexes hlexes, hs.means⟩

namespace Rational

/-- Numbers are read as their exact values. What functions stand for is not looked at. -/
def literal : Reading Float ℚ where
  number := id
  toField := ofDouble
  fold _ _ := Scalar.zero
  function _ values := values.sum
  power := power

theorem literal_literal : literal.Literal :=
  ⟨fun _ => (Rat.cast_id _).symm, fun a n => power_intCast a n⟩

end Rational

/-- The text of a formula is an expression again. In every field and with any functions, its value is
that of the formula with every coefficient rounded to twelve decimals, at every depth. -/
theorem Formula.text_reads_back {text : String} {r : Registry} {value? : Option (String → Float)}
    {p : Formula} (h : Formula.ofText text r value? = .ok p)
    (hfinite : p.Over fun c => c.isFinite = true) (hexponents : p.ExponentsWithin 2147483647) :
    ∃ e, parse (Polynomial.text p) = .ok e ∧
      ∀ (F : Type) [Field F] (R : Reading Float F) (symbols : String → F), R.Literal →
        (e.mapNumbers R.toField).value? (R.meaning symbols) =
          some (R.valueOf symbols p.rounded) := by
  have hbuilt := Formula.built_of_ofText h
  have hparses : ∀ (F : Type) [Field F] (R : Reading Float F) (symbols : String → F), R.Literal →
      ∃ e, parse (Polynomial.text p) = .ok e ∧ Means R symbols e (R.valueOf symbols p.rounded) :=
    fun F _ R symbols hR => (hbuilt.reads hR hfinite hexponents).parse
  -- what is parsed is the same for all readings
  obtain ⟨e, hparse, -⟩ := hparses ℚ Rational.literal (fun _ => 0) Rational.literal_literal
  refine ⟨e, hparse, fun F _ R symbols hR => ?_⟩
  obtain ⟨e', hparse', hmeans⟩ := hparses F R symbols hR
  obtain rfl := Except.ok.inj (hparse.symm.trans hparse')
  exact hmeans

/-- The quotient of a number times an atom and a later atom. -/
theorem Polynomial.div_single_ofAtom {a b : Atom Float} {c : Float}
    (hgt : Coefficient.compareAtoms b a = .gt)
    (hc : Scalar.eq (c * Scalar.powInt Scalar.one (-1)) Scalar.zero = false) :
    div [([(a, 1)], c)] (ofAtom b) =
      some [([(a, 1), (b, -1)], c * Scalar.powInt Scalar.one (-1))] := by
  have hone : Scalar.eq (Scalar.powInt (Scalar.one : Float) (-1)) Scalar.zero = false := by
    decide +kernel
  have hpow : powInt [([(b, 1)], Scalar.one)] (-1) =
      some [([(b, -1)], Scalar.powInt (Scalar.one : Float) (-1))] :=
    congrArg some (gather_eq_single hone)
  have hmul : Monomial.mul [(a, 1)] [(b, -1)] = some [(a, 1), (b, -1)] := by
    simp only [Monomial.mul, List.foldlM_cons, List.foldlM_nil, Monomial.mulAtom, hgt]
    rfl
  rw [div, ofAtom_eq_single, hpow, Option.bind_some, mul_single, mulTerms, hmul, Option.map_some,
    Option.map_some]
  exact congrArg some (gather_eq_single hc)

theorem Formula.ofText_third_mul_x1_div_x2 :
    Formula.ofText "c1*x1/x2" (.empty "plain" .var) (some fun _ => 0.3333333333333333) =
      .ok [([(.symbol "x1", 1), (.symbol "x2", -1)], 0.3333333333333333)] := by
  have hmul : mul (constant 0.3333333333333333) (ofAtom (.symbol "x1" : Atom Float)) = _ :=
    mul_constant_ofAtom (by decide) (by decide) _
  have hone : (0.3333333333333333 : Float) * Scalar.one * Scalar.powInt Scalar.one (-1) =
      0.3333333333333333 := by
    decide +kernel
  have hdiv : binary .div (binary .mul (constant 0.3333333333333333) (ofAtom (.symbol "x1")))
      (ofAtom (.symbol "x2")) =
        [([(.symbol "x1", 1), (.symbol "x2", -1)], (0.3333333333333333 : Float))] := by
    rw [binary, binary?, binary, binary?, hmul, Option.getD_some,
      div_single_ofAtom (by decide +kernel) (by decide +kernel), Option.getD_some, hone]
  refine Formula.ofText_of_parse
    (e := .binary .div (.binary .mul (.name "c1") (.name "x1")) (.name "x2")) (by cbv) ?_
  simp only [Expr.expand, bind, Except.bind]
  exact congrArg Except.ok hdiv

/-- A third of a quotient is read with twelve decimals of the third. -/
theorem Formula.text_reads_back_quotient :
    ∃ p : Formula,
      Formula.ofText "c1*x1/x2" (.empty "plain" .var) (some fun _ => 0.3333333333333333) = .ok p ∧
      (p.Over fun c => c.isFinite = true) ∧ p.ExponentsWithin 2147483647 ∧
      Rational.literal.Literal ∧
      ∃ e, parse (Polynomial.text p) = .ok e ∧
        (e.mapNumbers Rational.literal.toField).value?
          (Rational.literal.meaning fun name => if name = "x1" then 6 else 2) =
            some (3 * Rational.ofDouble 0.333333333333) := by
  have h := Formula.ofText_third_mul_x1_div_x2
  have hfinite : (0.3333333333333333 : Float).isFinite = true := by decide +kernel
  have hrounded : Number.roundTo 0.3333333333333333 printedDecimals = 0.333333333333 := by
    decide +kernel
  have hover : Over (fun c => c.isFinite = true)
      [([(.symbol "x1", 1), (.symbol "x2", -1)], 0.3333333333333333)] :=
    ⟨List.forall_mem_singleton.mpr hfinite, List.forall_mem_singleton.mpr
      (List.forall_mem_cons.mpr ⟨.symbol, List.forall_mem_singleton.mpr .symbol⟩)⟩
  have hwithin : ExponentsWithin 2147483647
      [([(.symbol "x1", 1), (.symbol "x2", -1)], 0.3333333333333333)] :=
    ⟨List.forall_mem_singleton.mpr
      (List.forall_mem_cons.mpr ⟨by decide, List.forall_mem_singleton.mpr (by decide)⟩),
     List.forall_mem_singleton.mpr
      (List.forall_mem_cons.mpr ⟨.symbol, List.forall_mem_singleton.mpr .symbol⟩)⟩
  obtain ⟨e, hparse, hvalue⟩ := text_reads_back h hover hwithin
  refine ⟨_, h, hover, hwithin, Rational.literal_literal, e, hparse, ?_⟩
  rw [hvalue ℚ _ _ Rational.literal_literal, Formula.rounded, Atom.mapTerms, Atom.mapTerms,
    hrounded]
  have htwo : (6 : ℚ) * 2⁻¹ = 3 := by norm_num
  simp [Reading.valueOf, Polynomial.value, Monomial.value, Atom.mapFactors, Atom.mapCoefficients,
    Atom.value, Rational.literal, htwo, mul_comm]

end SymbolicRegression
