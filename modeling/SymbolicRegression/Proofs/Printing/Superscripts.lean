import SymbolicRegression.Proofs.Expansion.Reduced
import SymbolicRegression.Proofs.Printing.Keys
import SymbolicRegression.Proofs.Printing.Typesetting

/-!
# Superscripts of formulas

The LaTeX of a formula is put together along the formula, and every part of it is typeset in a text
that can be put together with others. Of all atoms only a power that was kept as a call has an
exponent of its own, so a double superscript comes about exactly where such a power is raised once
more, wherever that is in the formula.
-/

namespace SymbolicRegression

open Latex

/-- A power that expansion has not carried out. -/
def Atom.isPower {K : Type} : Atom K → Bool
  | .call _ "pow" [_, _] => true
  | _ => false

/-- A factor whose atom is a power and has another exponent to be written. None is written for one,
and for minus one none below a fraction bar. -/
def IsRaisedPower {K : Type} (f : Atom K × Int) : Prop :=
  f.1.isPower = true ∧ f.2 ≠ 1 ∧ f.2 ≠ -1

/-- Somewhere in the sum, at any depth, a power is raised once more. -/
def Polynomial.RaisesPower {K : Type} (p : Polynomial K) : Prop :=
  ∃ q : Polynomial K, q.Inside p ∧ ∃ t ∈ q, ∃ f ∈ t.1, IsRaisedPower f

/-- A power is raised once more by the exponent of the factor, or inside of its atom. -/
def FactorRaises {K : Type} (f : Atom K × Int) : Prop :=
  IsRaisedPower f ∨ ∃ q ∈ f.1.parts, q.RaisesPower

theorem Polynomial.raisesPower_iff {K : Type} {p : Polynomial K} :
    p.RaisesPower ↔ ∃ t ∈ p, ∃ f ∈ t.1, FactorRaises f := by
  constructor
  · rintro ⟨q, hq, t, ht, f, hf, hraises⟩
    cases hq with
    | refl => exact ⟨t, ht, f, hf, .inl hraises⟩
    | part ht' hf' hr hq => exact ⟨_, ht', _, hf', .inr ⟨_, hr, q, hq, t, ht, f, hf, hraises⟩⟩
  · rintro ⟨t, ht, f, hf, hraises | ⟨r, hr, q, hq, hinner⟩⟩
    · exact ⟨p, .refl, t, ht, f, hf, hraises⟩
    · exact ⟨q, .part ht hf hr hq, hinner⟩

namespace Latex

/-! ## Words -/

theorem isOrdinary_of_isWordChar {c : Char} (h : isWordChar c = true) : IsOrdinary c :=
  ⟨ne_of_isWordChar h (by decide), ne_of_isWordChar h (by decide), ne_of_isWordChar h (by decide),
    ne_of_isWordChar h (by decide), ne_of_isWordChar h (by decide)⟩

theorem typeset_word {cs : List Char} (hne : cs ≠ []) (h : ∀ c ∈ cs, isWordChar c = true) :
    Typeset False false cs :=
  .word hne fun c hc => isOrdinary_of_isWordChar (h c hc)

theorem typeset_isWord {s : String} (h : IsWord s) : Typeset False false s.toList :=
  typeset_word h.1 h.2

theorem typeset_ofInt (n : Int) : Typeset False false (Number.ofInt n).toList := by
  have hdigits : ∀ c ∈ Nat.toDigits 10 n.natAbs, IsOrdinary c := fun c hc =>
    isOrdinary_of_isWordChar (TermLayout.isWordChar_of_mem_toDigits hc)
  have hnumber : Typeset False false (String.ofList (Nat.toDigits 10 n.natAbs)).toList := by
    rw [String.toList_ofList]
    exact .word Nat.toDigits_ne_nil hdigits
  rw [Number.ofInt]
  split
  · rw [String.toList_append]
    exact separates_mark (c := '-') (by decide) _ _ _ hnumber
  · exact hnumber

theorem toList_braced (s : String) : (PrintStyle.braced s).toList = group s.toList := by
  rw [PrintStyle.braced, String.toList_append, String.toList_append]
  rfl

theorem toList_parenthesized (s : String) :
    (parenthesized s).toList = fenced '(' ')' s.toList := by
  rw [parenthesized, String.toList_append, String.toList_append, fenced]
  exact List.append_assoc ..

theorem typeset_symbol {name : String} (h : IsWord name) :
    Typeset False false (symbol name).toList := by
  obtain ⟨hne, hword⟩ := h
  have hmem : ∀ c ∈ (name.toList.reverse.takeWhile Char.isDigit).reverse, c ∈ name.toList :=
    fun c hc => List.mem_reverse.mp ((List.takeWhile_sublist _).subset (List.mem_reverse.mp hc))
  rw [symbol]
  generalize (name.toList.reverse.takeWhile Char.isDigit).reverse = digits at hmem
  split
  · exact typeset_word hne hword
  · next hdigits =>
      rw [Bool.or_eq_true, not_or, List.isEmpty_iff] at hdigits
      have hhead : Typeset False false
          (name.toList.take (name.toList.length - digits.length) ++ ['_']) := by
        refine typeset_word (by simp) (List.forall_mem_append.mpr ⟨fun c hc => ?_, ?_⟩)
        · exact hword c (List.mem_of_mem_take hc)
        · exact List.forall_mem_singleton.mpr (by decide)
      have hindex : Typeset False false digits :=
        typeset_word hdigits.1 fun c hc => hword c (hmem c hc)
      simp only [String.toList_append, String.toList_ofList, toList_braced]
      exact (hhead.grouped hindex.body).congr or_self_iff

/-! ## Terms -/

variable {p : Prop} {raised : Bool}

/-- A base with an exponent, which is not written if it is one. -/
theorem exists_typeset_power {base : String} (h : Typeset p raised base.toList) (e : Int) :
    ∃ raised', Typeset (p ∨ raised = true ∧ e ≠ 1) raised'
      (if e = 1 then base else PrintStyle.latex.raise base (Number.ofInt e)).toList := by
  by_cases he : e = 1
  · rw [if_pos he]
    exact ⟨raised, h.congr (by simp [he])⟩
  · rw [if_neg he, PrintStyle.latex, String.toList_append, String.toList_append, toList_braced,
      List.append_assoc]
    exact ⟨true, (h.raise (typeset_ofInt e).body).congr (by simp [he])⟩

theorem exists_typeset_intercalate (sep : String) (hsep : Separates sep.toList)
    {texts : List String} (h : Row p (texts.map String.toList)) (hne : texts ≠ []) :
    ∃ raised, Typeset p raised (sep.intercalate texts).toList := by
  rw [String.toList_intercalate]
  exact h.intercalate hsep fun hnil => hne (List.map_eq_nil_iff.mp hnil)

/-- A fraction, or what stands above the bar if there is nothing below it. -/
theorem exists_typeset_fraction {p q : Prop} {upper lower : List String}
    (hupper : Row p (upper.map String.toList)) (hlower : Row q (lower.map String.toList)) :
    ∃ raised, Typeset (p ∨ q) raised
      (if lower.isEmpty then
          (if upper.isEmpty then "1" else PrintStyle.latex.times.intercalate upper)
        else PrintStyle.latex.quotient
          (if upper.isEmpty then "1" else PrintStyle.latex.times.intercalate upper)
          (PrintStyle.latex.times.intercalate lower) lower.length).toList := by
  have hnumerator : ∃ raised, Typeset p raised
      (if upper.isEmpty then "1" else PrintStyle.latex.times.intercalate upper).toList := by
    cases upper with
    | nil =>
        cases hupper
        exact ⟨false, typeset_isWord (isWord_of_all (by decide) (by decide))⟩
    | cons u us =>
        exact exists_typeset_intercalate " " separates_blank hupper (List.cons_ne_nil u us)
  obtain ⟨raised, hnumerator⟩ := hnumerator
  cases lower with
  | nil =>
      cases hlower
      exact ⟨raised, hnumerator.congr (iff_of_eq (or_false p)).symm⟩
  | cons l ls =>
      obtain ⟨raised', hdenominator⟩ :=
        exists_typeset_intercalate " " separates_blank hlower (List.cons_ne_nil l ls)
      have hfraction := Typeset.command ['f', 'r', 'a', 'c'] (by decide) (by decide)
        (by decide) (by decide) hnumerator.body
      refine ⟨false, ?_⟩
      show Typeset _ _ ("\\frac" ++ PrintStyle.braced _ ++ PrintStyle.braced _).toList
      rw [String.toList_append, String.toList_append, toList_braced, toList_braced]
      exact hfraction.grouped hdenominator.body

variable {K : Type} [Coefficient K]

theorem factors_eq_map (m : Monomial K) : factors m = m.map fun f => (atom f.1, f.2) := by
  induction m with
  | nil => rfl
  | cons f m ih => rw [factors, ih, List.map_cons]

theorem terms_eq_map (p : Polynomial K) :
    terms p = p.map fun t => Polynomial.printTerm .latex (factors t.1) t.2 := by
  induction p with
  | nil => rfl
  | cons t p ih => rw [terms, ih, List.map_cons]

theorem polynomials_eq_map (ps : List (Polynomial K)) :
    polynomials ps = ps.map Polynomial.latex := by
  induction ps with
  | nil => rfl
  | cons p ps ih =>
      rw [polynomials, ih, List.map_cons]
      rfl

/-- The text of an atom has a double superscript only where its parts have one. -/
def AtomTypeset (a : Atom Float) : Prop :=
  Typeset (∃ q ∈ a.parts, q.RaisesPower) a.isPower (atom a).toList

/-- The powers on one side of the fraction bar, where exponents are turned so that none is
negative. -/
theorem row_powers {m : Monomial Float} (h : ∀ f ∈ m, AtomTypeset f.1) (keep : Int → Bool)
    (turn : Int → Int) (hturn : ∀ e, keep e = true → (turn e ≠ 1 ↔ e ≠ 1 ∧ e ≠ -1)) :
    Row (∃ f ∈ m.filter fun f => keep f.2, FactorRaises f)
      (((((factors m).filter fun f => keep f.2).map fun f =>
        if turn f.2 = 1 then f.1
        else PrintStyle.latex.raise f.1 (Number.ofInt (turn f.2)))).map String.toList) := by
  rw [factors_eq_map, List.filter_map, List.map_map, List.map_map]
  refine row_map fun f hf => ?_
  obtain ⟨hmem, hkeep⟩ := List.mem_filter.mp hf
  obtain ⟨raised, hpower⟩ := exists_typeset_power (h f hmem) (turn f.2)
  refine ⟨raised, hpower.congr ?_⟩
  rw [FactorRaises, IsRaisedPower, hturn f.2 hkeep]
  exact or_comm

theorem exists_typeset_printTerm {t : Monomial Float × Float} (h : ∀ f ∈ t.1, AtomTypeset f.1) :
    ∃ raised, Typeset (∃ f ∈ t.1, FactorRaises f) raised
      (Polynomial.printTerm .latex (factors t.1) t.2).text.toList := by
  have hupper := row_powers h (fun e => decide (0 < e)) (fun e => e)
    fun e he => ⟨fun hne => ⟨hne, by simp at he; omega⟩, fun hne => hne.1⟩
  have hlower := row_powers h (fun e => decide (e ≤ 0)) (fun e => -e)
    fun e he => by simp at he; omega
  have hlabel : Typeset False false (Coefficient.label (Scalar.abs t.2)).toList :=
    typeset_isWord (Number.isWord_label t.2)
  have hall : (∃ f ∈ t.1, FactorRaises f) ↔
      (∃ f ∈ t.1.filter fun f => decide (0 < f.2), FactorRaises f) ∨
        ∃ f ∈ t.1.filter fun f => decide (f.2 ≤ 0), FactorRaises f := by
    simp only [List.mem_filter, decide_eq_true_eq, ← exists_or, ← or_and_right, ← and_or_left,
      lt_or_ge, and_true]
  rw [hall, Polynomial.printTerm]
  refine exists_typeset_fraction ?_ hlower
  split
  · have hrow := Row.cons hlabel hupper
    rwa [false_or] at hrow
  · exact hupper

/-! ## Sums -/

theorem separates_sign (negative : Bool) :
    Separates (if negative then " - " else " + ").toList := by
  cases negative with
  | true => exact separates_blank.append ((separates_mark (by decide)).append separates_blank)
  | false => exact separates_blank.append ((separates_mark (by decide)).append separates_blank)

/-- Terms are put one behind the other, with signs in between. -/
theorem exists_typeset_foldl {q : Prop} {terms : List PrintedTerm}
    (h : Row q (terms.map fun t => t.text.toList)) {out : String}
    (hout : Typeset p raised out.toList) :
    ∃ raised', Typeset (p ∨ q) raised'
      (terms.foldl (fun out t => out ++ (if t.negative then " - " else " + ") ++ t.text)
        out).toList := by
  induction terms generalizing p q raised out with
  | nil =>
      cases h
      exact ⟨raised, hout.congr (iff_of_eq (or_false p)).symm⟩
  | cons t terms ih =>
      cases h with
      | @cons p' q' _ _ _ ht hrow =>
          have hmore := hout.append (separates_sign t.negative _ _ _ ht)
          rw [← String.toList_append, ← String.toList_append, ← String.append_assoc] at hmore
          obtain ⟨raised', hall⟩ := ih hrow hmore
          exact ⟨raised', hall.congr or_assoc⟩

theorem exists_typeset_latex {p : Formula} (h : ∀ t ∈ p, ∀ f ∈ t.1, AtomTypeset f.1) :
    ∃ raised, Typeset p.RaisesPower raised p.latex.toList := by
  have horder := Polynomial.printedOrder_map p
    (fun t => Polynomial.printTerm .latex (factors t.1) t.2) fun t => by
      rw [factors_eq_map]
      simp [Polynomial.printTerm]
  have hraises : p.RaisesPower ↔ ∃ t ∈ p.printedOrder, ∃ f ∈ t.1, FactorRaises f := by
    simp only [Polynomial.raisesPower_iff, Polynomial.mem_printedOrder]
  -- the constant term is printed last, which moves no double superscript
  have hrow : Row (∃ t ∈ p.printedOrder, ∃ f ∈ t.1, FactorRaises f)
      ((p.printedOrder.map fun t => Polynomial.printTerm .latex (factors t.1) t.2).map
        fun t => t.text.toList) := by
    rw [List.map_map]
    refine row_map fun t ht => exists_typeset_printTerm (h t ?_)
    exact Polynomial.mem_printedOrder.mp ht
  rw [hraises, Polynomial.latex, Polynomial.joinTerms, terms_eq_map, horder]
  generalize p.printedOrder.map _ = printed at hrow
  generalize (∃ t ∈ p.printedOrder, ∃ f ∈ t.1, FactorRaises f) = raises at hrow
  cases printed with
  | nil =>
      cases hrow
      exact ⟨false, typeset_isWord (isWord_of_all (by decide) (by decide))⟩
  | cons t ts =>
      cases hrow with
      | @cons q _ raised _ _ ht hrow =>
          have hfirst : Typeset q raised ((if t.negative then "-" else "") ++ t.text).toList := by
            rw [String.toList_append]
            cases t.negative with
            | true => exact separates_mark (c := '-') (by decide) _ _ _ ht
            | false => exact ht
          exact exists_typeset_foldl hrow hfirst

/-! ## Atoms -/

/-- Arguments between parentheses; there may be none. -/
theorem typeset_arguments {texts : List String} {p : Prop} (h : Row p (texts.map String.toList)) :
    Typeset p false (parenthesized (", ".intercalate texts)).toList := by
  have hcomma : Separates ", ".toList :=
    (separates_mark (c := ',') (by decide)).append separates_blank
  have hbody : Body p (", ".intercalate texts).toList := by
    cases texts with
    | nil =>
        cases h
        exact body_nil
    | cons text texts =>
        obtain ⟨raised, hall⟩ := exists_typeset_intercalate ", " hcomma h (List.cons_ne_nil _ _)
        exact hall.body
  rw [toList_parenthesized]
  exact .fence .parentheses hbody

theorem exists_typeset_of_row {cs : List Char} {p : Prop} (h : Row p [cs]) :
    ∃ raised, Typeset p raised cs := by
  obtain ⟨raised, hcs⟩ := h.intercalate separates_blank (List.cons_ne_nil cs [])
  rw [List.intercalate_singleton] at hcs
  exact ⟨raised, hcs⟩

/-- Only a power ends with a superscript. -/
theorem typeset_call {name : String} (hname : Lexer.isName name = true) {texts : List String}
    {p : Prop} (h : Row p (texts.map String.toList)) :
    Typeset p (name == "pow" && texts.length == 2) (call name texts).toList := by
  rw [call.eq_def]
  split
  · next a =>
      obtain ⟨raised, ha⟩ := exists_typeset_of_row h
      rw [String.toList_append, toList_braced]
      exact .command ['s', 'q', 'r', 't'] (by decide) (by decide) (by decide) (by decide) ha.body
  · next a =>
      obtain ⟨raised, ha⟩ := exists_typeset_of_row h
      rw [String.toList_append, String.toList_append, List.append_assoc]
      exact .fence .bars ha.body
  · next a b =>
      rw [List.map_cons, List.map_cons, List.map_nil] at h
      obtain - | ⟨ha, hrow⟩ := h
      obtain ⟨raised, hb⟩ := exists_typeset_of_row hrow
      rw [String.toList_append, String.toList_append, toList_parenthesized, toList_braced,
        List.append_assoc]
      exact ((Typeset.fence .parentheses ha.body).raise hb.body).congr (by simp)
  · next hsqrt habs hpow =>
      have harguments := typeset_arguments h
      have hnever : (name == "pow" && texts.length == 2) = false := by
        rw [Bool.eq_false_iff, Ne, Bool.and_eq_true, beq_iff_eq, beq_iff_eq, List.length_eq_two]
        rintro ⟨hname, a, b, htexts⟩
        exact hpow a b hname htexts
      rw [hnever]
      dsimp only
      split
      · next hstock =>
          have hall : ∀ name ∈ ["sin", "cos", "tan", "tanh", "exp", "log"],
              name.toList ≠ [] ∧ name.toList.all Char.isAlpha = true ∧
                name.toList ≠ ['l', 'e', 'f', 't'] ∧ name.toList ≠ ['r', 'i', 'g', 'h', 't'] := by
            decide
          obtain ⟨hne, halpha, hleft, hright⟩ := hall name (List.contains_iff_mem.mp hstock)
          rw [String.toList_append, String.toList_append, toList_braced]
          exact .command name.toList hne halpha hleft hright harguments.body
      · have hoperator := typeset_isWord (isWord_of_isName hname)
        have hcommand := Typeset.command
          ['o', 'p', 'e', 'r', 'a', 't', 'o', 'r', 'n', 'a', 'm', 'e']
          (by decide) (by decide) (by decide) (by decide) hoperator.body
        rw [String.toList_append, String.toList_append, toList_braced, toList_braced]
        exact (hcommand.grouped harguments.body).congr (iff_of_eq (false_or p))

theorem isPower_ofCall (name : String) (ps : List Formula) :
    (Atom.ofCall name ps).isPower = (name == "pow" && ps.length == 2) := by
  rw [Atom.ofCall, Atom.isPower.eq_def]
  split
  · next heq =>
      obtain ⟨-, rfl, rfl⟩ := Atom.call.inj heq
      rfl
  · next hpow =>
      rw [eq_comm, Bool.eq_false_iff, Ne, Bool.and_eq_true, beq_iff_eq, beq_iff_eq,
        List.length_eq_two]
      rintro ⟨rfl, p, q, rfl⟩
      exact hpow _ p q rfl

theorem atomTypeset_of_built {a : Atom Float} (ha : a.Built) : AtomTypeset a := by
  -- the hypotheses are about the factors in the arguments, so that each of these sums is typeset
  induction ha with
  | symbol hname =>
      exact (typeset_symbol (isWord_of_isName hname)).congr (by simp [Atom.parts])
  | @call name arguments hname _ _ ih =>
      have hrow : Row (∃ q ∈ arguments, q.RaisesPower)
          ((arguments.map Polynomial.latex).map String.toList) := by
        rw [List.map_map]
        exact row_map fun q hq => exists_typeset_latex (ih q hq)
      have hcall := typeset_call hname hrow
      rw [List.length_map] at hcall
      rw [AtomTypeset, isPower_ofCall, Atom.ofCall, atom, polynomials_eq_map]
      exact hcall
  | @group body _ _ _ ih =>
      obtain ⟨raised, hbody⟩ := exists_typeset_latex ih
      have hfenced := Typeset.fence .parentheses hbody.body
      rw [← toList_parenthesized] at hfenced
      exact hfenced.congr (by simp [Atom.parts, Atom.ofGroup])

end Latex

/-! ## Formulas -/

variable {text : String} {r : Registry} {value? : Option (String → Float)} {p : Formula}

theorem Formula.exists_typeset (h : Formula.ofText text r value? = .ok p) :
    ∃ raised, Typeset p.RaisesPower raised p.latex.toList :=
  exists_typeset_latex fun t ht f hf =>
    atomTypeset_of_built ((Formula.built_of_ofText h).atoms t ht f hf)

/-- In the LaTeX of a formula, braces and growing delimiters are always nested properly. It has a
double superscript exactly where a power that expansion has kept as a call has an exponent other
than one, on either side of a fraction bar and at any depth. -/
theorem Formula.latex_doubleSuperscript_iff (h : Formula.ofText text r value? = .ok p) :
    Balanced (tokens p.latex.toList) ∧
      (DoubleSuperscript (tokens p.latex.toList) ↔ p.RaisesPower) := by
  obtain ⟨raised, hlatex⟩ := Formula.exists_typeset h
  exact ⟨hlatex.balanced, hlatex.body.doubleSuperscript_iff⟩

/-! ### Powers of symbols -/

/-- A power whose exponent is no number. -/
def Atom.symbolicPower : Atom Float :=
  Atom.ofCall "pow" [Polynomial.ofAtom (.symbol "x1"), Polynomial.ofAtom (.symbol "x2")]

namespace Polynomial

theorem raisesPower_ofAtom {a : Atom Float} :
    (ofAtom a).RaisesPower ↔ ∃ q ∈ a.parts, q.RaisesPower := by
  rw [raisesPower_iff, ofAtom_eq_single]
  simp [FactorRaises, IsRaisedPower]

theorem binary_pow_symbols :
    binary .pow (ofAtom (.symbol "x1")) (ofAtom (.symbol "x2")) = ofAtom Atom.symbolicPower := by
  have hkept : binary? .pow (ofAtom (.symbol "x1" : Atom Float)) (ofAtom (.symbol "x2")) =
      none := by
    rw [binary?, pow, constant?_ofAtom, constant?_ofAtom]
  rw [binary, hkept]
  rfl

theorem binary_mul_self (a : Atom Float) :
    binary .mul (ofAtom a) (ofAtom a) = [([(a, 2)], Scalar.one * Scalar.one)] := by
  have hone : Scalar.eq (Scalar.one * Scalar.one : Float) Scalar.zero = false := by decide +kernel
  have hself : Coefficient.compareAtoms a a = .eq := Std.ReflOrd.compare_self
  have hmul : Monomial.mul [(a, 1)] [(a, 1)] = some [(a, 2)] := by
    simp only [Monomial.mul, List.foldlM_cons, List.foldlM_nil, Monomial.mulAtom, hself]
    rfl
  rw [binary, binary?, ofAtom_eq_single, mul_single, mulTerms, hmul, Option.map_some,
    Option.map_some, Option.getD_some]
  exact gather_eq_single hone

end Polynomial

/-- By itself, the power is in order. -/
theorem Formula.latex_doubleSuperscript_iff_power :
    ∃ p, Formula.ofText "x1^x2" (.empty "plain" .var) none = .ok p ∧
      Balanced (tokens p.latex.toList) ∧ ¬DoubleSuperscript (tokens p.latex.toList) := by
  have h : Formula.ofText "x1^x2" (.empty "plain" .var) none =
      .ok (Polynomial.ofAtom .symbolicPower) := by
    refine Formula.ofText_of_parse (e := .binary .pow (.name "x1") (.name "x2")) (by cbv) ?_
    simp only [Expr.expand, bind, Except.bind, Polynomial.binary_pow_symbols]
    rfl
  obtain ⟨hbalanced, hdouble⟩ := Formula.latex_doubleSuperscript_iff h
  refine ⟨_, h, hbalanced, fun hseen => ?_⟩
  obtain ⟨q, hq, hraises⟩ := Polynomial.raisesPower_ofAtom.mp (hdouble.mp hseen)
  have hsymbol : ∀ name, ¬(Polynomial.ofAtom (.symbol name : Atom Float)).RaisesPower := by
    intro name hname
    obtain ⟨q, hq, -⟩ := Polynomial.raisesPower_ofAtom.mp hname
    cases hq
  rcases List.mem_pair.mp hq with rfl | rfl
  · exact hsymbol "x1" hraises
  · exact hsymbol "x2" hraises

/-- The product of the power with itself is its square, which has a second superscript. -/
theorem Formula.latex_doubleSuperscript_square :
    ∃ p, Formula.ofText "x1^x2*x1^x2" (.empty "plain" .var) none = .ok p ∧
      DoubleSuperscript (tokens p.latex.toList) := by
  have h : Formula.ofText "x1^x2*x1^x2" (.empty "plain" .var) none =
      .ok [([(.symbolicPower, 2)], Scalar.one * Scalar.one)] := by
    refine Formula.ofText_of_parse (e := .binary .mul (.binary .pow (.name "x1") (.name "x2"))
      (.binary .pow (.name "x1") (.name "x2"))) (by cbv) ?_
    simp only [Expr.expand, bind, Except.bind, pure, Except.pure, Polynomial.binary_pow_symbols,
      Polynomial.binary_mul_self]
  obtain ⟨raised, hlatex⟩ := Formula.exists_typeset h
  refine ⟨_, h, hlatex.doubleSuperscript (Polynomial.raisesPower_iff.mpr ?_)⟩
  exact ⟨_, List.mem_cons_self, _, List.mem_cons_self, .inl ⟨rfl, by decide, by decide⟩⟩

end SymbolicRegression
