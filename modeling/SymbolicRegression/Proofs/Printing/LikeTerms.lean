import SymbolicRegression.Proofs.Expansion.Formulas
import SymbolicRegression.Proofs.Expansion.Overflow
import SymbolicRegression.Proofs.Parsing.Embedding
import SymbolicRegression.Proofs.Printing.Coefficients

/-!
# Which terms are merged

Like terms are merged if their atoms have one key, and atoms have one key exactly if they are of one
kind, have one name and hold sums that are printed alike. Printing rounds coefficients to twelve
decimals, so sums that are printed alike need not be equal: two functions of numbers that are too
small to be told apart cancel. Where the coefficients are told apart, only functions of equal
arguments do.
-/

namespace SymbolicRegression

/-- A function of one argument that stays applied to what is no number. -/
structure Registry.StaysApplied (r : Registry) (f : String) : Prop where
  name : Lexer.isName f = true
  meaning : ∃ m, r.meaning? f = some m ∧ m.arity = 1 ∧ m.arithmetic ≠ .neg

namespace Polynomial

variable {p q : Formula} {s t : Monomial Float × Float} {a b : Atom Float}

/-! ## Differences of atoms -/

theorem gather_eq_single (ht : Scalar.eq t.2 Scalar.zero = false) : gather [t] = [t] := by
  rw [gather, List.foldl_cons, List.foldl_nil, absorb, List.reverse_singleton, List.filter_cons, ht]
  rfl

theorem gather_like (h : Monomial.compare s.1 t.1 = .eq)
    (hzero : Scalar.eq (s.2 + t.2) Scalar.zero = true) : gather [s, t] = [] := by
  rw [gather, List.foldl_cons, List.foldl_cons, List.foldl_nil, absorb, absorb.eq_def]
  simp only [h, if_true, List.reverse_singleton, List.filter_cons, hzero, Bool.not_true,
    Bool.false_eq_true, if_false, List.filter_nil]

theorem gather_unlike (h : Monomial.compare s.1 t.1 ≠ .eq)
    (hs : Scalar.eq s.2 Scalar.zero = false) : gather [s, t] ≠ [] := by
  rw [gather, List.foldl_cons, List.foldl_cons, List.foldl_nil, absorb, absorb.eq_def]
  simp only [h, if_false, List.reverse_cons, List.reverse_nil, List.nil_append, List.cons_append,
    List.filter_cons, hs, Bool.not_false, if_true]
  exact List.cons_ne_nil _ _

/-- What two terms add up to vanishes exactly if they are like terms that cancel. -/
theorem gather_merge_eq_nil_iff (hs : Scalar.eq s.2 Scalar.zero = false)
    (ht : Scalar.eq t.2 Scalar.zero = false) (hsum : Scalar.eq (s.2 + t.2) Scalar.zero = true) :
    gather (List.merge [s] [t] precedes) = [] ↔ Monomial.compare s.1 t.1 = .eq := by
  rw [List.cons_merge_cons, precedes, List.nil_merge, List.merge_right]
  constructor
  · intro h
    by_contra hne
    split at h
    · exact gather_unlike hne hs h
    · exact gather_unlike (fun heq => hne (Std.OrientedCmp.eq_symm heq)) ht h
  · intro h
    rw [h]
    exact gather_like h hsum

theorem ofAtom_eq_single (a : Atom Float) : ofAtom a = [([(a, 1)], Scalar.one)] := by
  have hone : Scalar.eq (Scalar.one : Float) Scalar.zero = false := by decide
  exact gather_eq_single hone

theorem scale_ofAtom (b : Atom Float) :
    scale (ofAtom b) (-Scalar.one) = [([(b, 1)], Scalar.one * -Scalar.one)] := by
  have hone : Scalar.eq (Scalar.one * -Scalar.one : Float) Scalar.zero = false := by
    decide
  rw [ofAtom_eq_single]
  exact gather_eq_single hone

theorem compare_single (a b : Atom Float) :
    Monomial.compare [(a, 1)] [(b, 1)] = Coefficient.compareAtoms a b := by
  rw [Monomial.compare, Std.ReflOrd.compare_self]
  cases Coefficient.compareAtoms a b <;> rfl

/-- The difference of two atoms is nothing exactly if they are equal. -/
theorem sub_ofAtom_eq_nil_iff (a b : Atom Float) :
    binary .sub (ofAtom a) (ofAtom b) = [] ↔ Coefficient.compareAtoms a b = .eq := by
  have hone : Scalar.eq (Scalar.one : Float) Scalar.zero = false := by decide
  have hminus : Scalar.eq (Scalar.one * -Scalar.one : Float) Scalar.zero = false := by
    decide
  have hsum : Scalar.eq (Scalar.one + Scalar.one * -Scalar.one : Float) Scalar.zero = true := by
    decide
  have hsub : binary .sub (ofAtom a) (ofAtom b) =
      gather (List.merge [([(a, 1)], Scalar.one)] [([(b, 1)], Scalar.one * -Scalar.one)]
        precedes) := by
    rw [← scale_ofAtom, ← ofAtom_eq_single]
    rfl
  rw [hsub, ← compare_single]
  exact gather_merge_eq_nil_iff (s := ([(a, 1)], Scalar.one))
    (t := ([(b, 1)], Scalar.one * -Scalar.one)) hone hminus hsum

/-- A function without arithmetic meaning stays applied to what is no number. -/
theorem call_single {f : String} {m : Meaning Float} (hm : m.arithmetic ≠ .neg)
    (hp : constant? p = none) : call f m [p] = ofAtom (Atom.ofCall f [p]) := by
  have hnone : [p].mapM constant? = none := by
    rw [List.mapM_cons, hp]
    rfl
  have happlied : applied f m.apply [p] = ofAtom (Atom.ofCall f [p]) := by
    rw [applied, hnone]
  rw [call.eq_def]
  cases harithmetic : m.arithmetic with
  | neg => exact absurd harithmetic hm
  | _ => exact happlied

end Polynomial

open SymbolicRegression.Polynomial

variable {r : Registry} {value? : Option (String → Float)}

/-! ## Formulas -/

theorem Formula.built_of_ofText {text : String} {p : Formula}
    (h : Formula.ofText text r value? = .ok p) : p.Built := by
  obtain ⟨e, hparse, hexpand⟩ := Formula.ofText_eq_ok h
  exact (named_of_parse hparse).built_expand hexpand

/-- A call with an argument that is no number is an atom. -/
theorem Expr.expand_call_of_staysApplied {f : String} {e : Expr Float} {p : Formula}
    (hf : r.StaysApplied f) (he : e.expand r.meaning? value? = .ok p)
    (hp : constant? p = none) :
    (Expr.call f [e]).expand r.meaning? value? = .ok (ofAtom (Atom.ofCall f [p])) := by
  obtain ⟨m, hm, harity, harithmetic⟩ := hf.meaning
  simp only [Expr.expand, Expr.expandAll, hm, he, harity, bind, Except.bind, pure, Except.pure,
    call_single harithmetic hp, List.length_singleton, ne_eq, not_true_eq_false, if_false]

/-- The difference of one function of two arguments is nothing exactly if these are printed alike. -/
theorem Formula.ofText_sub_calls {f a b : String} {p q : Formula} (hf : r.StaysApplied f)
    (ha : ofText a r value? = .ok p) (hb : ofText b r value? = .ok q) (hp : constant? p = none)
    (hq : constant? q = none) :
    ∃ d, ofText (f ++ "(" ++ a ++ ") - " ++ f ++ "(" ++ b ++ ")") r value? = .ok d ∧
      (d = [] ↔ Coefficient.compareAtoms (Atom.ofCall f [p]) (Atom.ofCall f [q]) = .eq) := by
  obtain ⟨e, hparse, hexpand⟩ := Formula.ofText_eq_ok ha
  obtain ⟨e', hparse', hexpand'⟩ := Formula.ofText_eq_ok hb
  refine ⟨_, ?_, sub_ofAtom_eq_nil_iff _ _⟩
  rw [ofText, parse_sub_calls hf.name hparse hparse']
  dsimp only
  rw [Expr.expand, Expr.expand_call_of_staysApplied hf hexpand hp,
    Expr.expand_call_of_staysApplied hf hexpand' hq]
  rfl

theorem Formula.ofText_of_parse {text : String} {e : Expr Float} {p : Formula}
    (hparse : parse text = .ok e) (hexpand : e.expand r.meaning? value? = .ok p) :
    Formula.ofText text r value? = .ok p := by
  simp only [Formula.ofText, hparse, hexpand]

theorem Polynomial.mul_constant_ofAtom {c : Float} (hc : Scalar.eq c Scalar.zero = false)
    (hone : Scalar.eq (c * Scalar.one) Scalar.zero = false) (a : Atom Float) :
    mul (constant c) (ofAtom a) = some [([(a, 1)], c * Scalar.one)] := by
  have hconstant : constant c = [([], c)] := gather_eq_single hc
  have hterm : mulTerms ([], c) ([(a, 1)], Scalar.one) = some ([(a, 1)], c * Scalar.one) := rfl
  rw [ofAtom_eq_single, hconstant, mul_single, hterm]
  exact congrArg some (gather_eq_single hone)

/-- The formula of a text that is a number times the first variable. -/
theorem Formula.ofText_number_mul_x1 {text : String} {c : Char} {rest : List Char} {v : Float}
    {n : Nat} (htext : text.toList = c :: rest) (hspace : Lexer.isSpace c = false)
    (hlongest : Lexer.longest? (c :: rest) = some (.number v, n))
    (hrest : rest.drop (n - 1) = ['*', 'x', '1']) (hv : Scalar.eq v Scalar.zero = false)
    (hone : Scalar.eq (v * Scalar.one) Scalar.zero = false) :
    Formula.ofText text r none = .ok [([(.symbol "x1", 1)], v * Scalar.one)] := by
  have hx1 : Lexer.Lexes ("x1".toList ++ []) [.name "x1"] :=
    .name (by decide) Lexer.separated_nil Lexer.lexes_nil
  have hstar : Lexer.Lexes ['*', 'x', '1'] [.star, .name "x1"] := .token (by decide) rfl hx1
  have hall : Lexer.Lexes text.toList [.number v, .star, .name "x1"] := by
    rw [htext]
    exact .token hspace hlongest (hrest ▸ hstar)
  have hparse : parse text = .ok (.binary .mul (.number v) (.name "x1")) :=
    parse_eq_ok_of_lexes (s := .mk (.mk (.power (.bare (.number v)))
      (.more .star (.power (.bare (.name "x1"))) .done)) .done) hall
  refine Formula.ofText_of_parse hparse ?_
  simp only [Expr.expand, bind, Except.bind, binary, binary?, mul_constant_ofAtom hv hone,
    Option.getD_some]
  rfl

/-! ## Numbers that are told apart -/

theorem Atom.built_ofCall {f : String} {p : Formula} (hf : Lexer.isName f = true) (hp : p.Built) :
    (Atom.ofCall f [p]).Built :=
  .call hf (List.forall_mem_singleton.mpr hp.sorted) (List.forall_mem_singleton.mpr hp.atoms)

theorem Polynomial.Over.ofAtom {S : Float → Prop} (hone : S Scalar.one) {a : Atom Float}
    (ha : a.Over S) : (Polynomial.ofAtom a).Over S := by
  rw [ofAtom_eq_single]
  refine ⟨List.forall_mem_singleton.mpr hone, List.forall_mem_singleton.mpr ?_⟩
  exact List.forall_mem_singleton.mpr ha

theorem Atom.Over.ofCall {S : Float → Prop} {f : String} {p : Formula} (hp : p.Over S) :
    (Atom.ofCall f [p]).Over S :=
  .call (List.forall_mem_singleton.mpr hp.coefficients) (List.forall_mem_singleton.mpr hp.atoms)

theorem constant?_ofAtom (a : Atom Float) : constant? (ofAtom a) = none := by
  rw [ofAtom_eq_single]
  rfl

theorem toldApart_one : ToldApart fun c => c = Scalar.one := by
  refine ⟨?_, ?_, fun c d hc hd _ _ => hc.trans hd.symm⟩
  · rintro c rfl
    decide +kernel
  · rintro c rfl
    decide +kernel

/-! ## Equal atoms -/

/-- Terms are merged exactly if their atoms are printed alike. Every formula is built of atoms of
which two are equal exactly if they are of one kind, have one name and hold sums that are printed
alike; and the difference of one function of two arguments that are no numbers is nothing exactly if
the arguments are printed alike. Where the coefficients are told apart at every depth, what is printed
alike is the same. -/
theorem equal_iff_printed_alike (r : Registry) (value? : Option (String → Float)) :
    (∀ text p, Formula.ofText text r value? = .ok p → p.Built) ∧
    (∀ a b : Atom Float, a.Built → b.Built →
      (Coefficient.compareAtoms a b = .eq ↔
        a.Agree (fun p q => Polynomial.text p = Polynomial.text q) b) ∧
      ∀ S, ToldApart S → a.Over S → b.Over S → (Coefficient.compareAtoms a b = .eq ↔ a = b)) ∧
    ∀ f a b p q, r.StaysApplied f → Formula.ofText a r value? = .ok p →
      Formula.ofText b r value? = .ok q → constant? p = none → constant? q = none →
      ∃ d, Formula.ofText (f ++ "(" ++ a ++ ") - " ++ f ++ "(" ++ b ++ ")") r value? = .ok d ∧
        (d = [] ↔ Polynomial.text p = Polynomial.text q) ∧
        ∀ S, ToldApart S → p.Over S → q.Over S → (d = [] ↔ p = q) := by
  refine ⟨fun text p h => Formula.built_of_ofText h, fun a b ha hb => ?_, ?_⟩
  · refine ⟨ha.compareAtoms_eq_iff hb, fun S hapart haS hbS => ⟨fun h => ?_, fun h => ?_⟩⟩
    · exact ha.eq_of_key_eq hapart hb haS hbS (Std.LawfulEqOrd.eq_of_compare h)
    · rw [h]
      exact Std.ReflOrd.compare_self
  · intro f a b p q hf ha hb hp hq
    have hpbuilt := Formula.built_of_ofText ha
    have hqbuilt := Formula.built_of_ofText hb
    obtain ⟨d, hd, hnil⟩ := Formula.ofText_sub_calls hf ha hb hp hq
    have htext : d = [] ↔ Polynomial.text p = Polynomial.text q := by
      rw [hnil, (Atom.built_ofCall hf.name hpbuilt).compareAtoms_eq_iff
        (Atom.built_ofCall hf.name hqbuilt)]
      simp [Atom.ofCall, Atom.Agree]
    refine ⟨d, hd, htext, fun S hapart hpS hqS => htext.trans ⟨fun h => ?_, fun h => by rw [h]⟩⟩
    exact hpbuilt.eq_of_text_eq hapart hqbuilt hpS hqS h

/-- The sines of two symbols do not cancel, and the sine of a symbol cancels itself. -/
theorem equal_iff_printed_alike_sines :
    ∃ p q d e : Formula,
      Formula.ofText "x1" (.empty "plain" .var) none = .ok p ∧ p.Built ∧
      Formula.ofText "x2" (.empty "plain" .var) none = .ok q ∧ q.Built ∧
      Coefficient.compareAtoms (Atom.ofCall "sin" [p]) (Atom.ofCall "sin" [q]) ≠ .eq ∧
      Formula.ofText "sin(x1) - sin(x2)" (.empty "plain" .var) none = .ok d ∧ d ≠ [] ∧
      Formula.ofText "sin(x1) - sin(x1)" (.empty "plain" .var) none = .ok e ∧ e = [] := by
  obtain ⟨hbuilt, hatoms, hdifference⟩ := equal_iff_printed_alike (.empty "plain" .var) none
  have hp : Formula.ofText "x1" (.empty "plain" .var) none = .ok (ofAtom (.symbol "x1")) :=
    Formula.ofText_of_parse (e := .name "x1") (by cbv) rfl
  have hq : Formula.ofText "x2" (.empty "plain" .var) none = .ok (ofAtom (.symbol "x2")) :=
    Formula.ofText_of_parse (e := .name "x2") (by cbv) rfl
  have hsin : Registry.StaysApplied (.empty "plain" .var) "sin" :=
    ⟨by decide, _, rfl, rfl, by decide⟩
  have hover : ∀ name, (ofAtom (.symbol name)).Over fun c => c = (Scalar.one : Float) :=
    fun name => .ofAtom (S := fun c => c = Scalar.one) rfl .symbol
  have hne : ofAtom (.symbol "x1" : Atom Float) ≠ ofAtom (.symbol "x2") := by
    simp [ofAtom_eq_single]
  obtain ⟨d, hd, -, hdnil⟩ := hdifference "sin" "x1" "x2" _ _ hsin hp hq
    (constant?_ofAtom _) (constant?_ofAtom _)
  obtain ⟨e, he, -, henil⟩ := hdifference "sin" "x1" "x1" _ _ hsin hp hp
    (constant?_ofAtom _) (constant?_ofAtom _)
  have hpbuilt := hbuilt _ _ hp
  have hqbuilt := hbuilt _ _ hq
  have hsines := (hatoms _ _ (Atom.built_ofCall hsin.name hpbuilt)
    (Atom.built_ofCall hsin.name hqbuilt)).2 _ toldApart_one (.ofCall (hover _)) (.ofCall (hover _))
  refine ⟨_, _, d, e, hp, hpbuilt, hq, hqbuilt, fun heq => ?_, hd, fun hnil => ?_, he, ?_⟩
  · obtain ⟨-, -, hlist⟩ := Atom.call.inj (hsines.mp heq)
    exact hne (List.cons.inj hlist).1
  · exact hne ((hdnil _ toldApart_one (hover _) (hover _)).mp hnil)
  · exact (henil _ toldApart_one (hover _) (hover _)).mpr rfl

/-- Arguments with unequal coefficients cancel, as their coefficients are rounded to the same
decimals. -/
theorem unequal_arguments_cancel :
    ∃ p q : Formula,
      Formula.ofText "0.0000000000001*x1" (.empty "plain" .var) none = .ok p ∧
      Formula.ofText "0.0000000000002*x1" (.empty "plain" .var) none = .ok q ∧
      constant? p = none ∧ constant? q = none ∧ same p q = false ∧
      Registry.StaysApplied (.empty "plain" .var) "sin" ∧
      Coefficient.compareAtoms (Atom.ofCall "sin" [p]) (Atom.ofCall "sin" [q]) = .eq ∧
      Formula.ofText "sin(0.0000000000001*x1) - sin(0.0000000000002*x1)"
        (.empty "plain" .var) none = .ok [] := by
  have hp : Formula.ofText "0.0000000000001*x1" (.empty "plain" .var) none = .ok
      [([(.symbol "x1", 1)], 1e-13 * Scalar.one)] :=
    Formula.ofText_number_mul_x1 rfl (by decide) rfl rfl (by decide +kernel) (by decide +kernel)
  have hq : Formula.ofText "0.0000000000002*x1" (.empty "plain" .var) none = .ok
      [([(.symbol "x1", 1)], 2e-13 * Scalar.one)] :=
    Formula.ofText_number_mul_x1 rfl (by decide) rfl rfl (by decide +kernel) (by decide +kernel)
  have hsin : Registry.StaysApplied (.empty "plain" .var) "sin" :=
    ⟨by decide, _, rfl, rfl, by decide⟩
  have hequal : Coefficient.compareAtoms
      (Atom.ofCall "sin" [[([(.symbol "x1", 1)], (1e-13 * Scalar.one : Float))]])
      (Atom.ofCall "sin" [[([(.symbol "x1", 1)], 2e-13 * Scalar.one)]]) = .eq := by
    decide +kernel
  obtain ⟨d, hd, hnil⟩ := Formula.ofText_sub_calls hsin hp hq rfl rfl
  obtain rfl := hnil.mpr hequal
  exact ⟨_, _, hp, hq, rfl, rfl, by decide +kernel, hsin, hequal, hd⟩

end SymbolicRegression
