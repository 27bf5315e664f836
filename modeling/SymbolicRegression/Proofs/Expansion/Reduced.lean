import SymbolicRegression.Proofs.Expansion.Symbols
import SymbolicRegression.Proofs.Printing.LikeTerms

/-!
# What is left after expansion

Terms that cancel and factors that cancel disappear as they are collected, a function of numbers is
computed, and only a sum of several terms becomes a group. So nothing is left in an expansion that
could have been left out, and this is so in every argument and in every group as well. It is an
invariant of the operations: a sum is what its terms have been gathered to, its monomials come from
those of the operands, and what they hold inside has been reduced before.

Whether an expansion is a number can then be seen from its symbols. A sum of two terms has a term
with an atom, since the terms are different; and at the bottom of every atom there is a symbol, since
a function has an argument that is no number and a group has two terms.
-/

namespace SymbolicRegression

/-- The sums that an atom holds: the arguments of a function, or the body of a group. -/
def Atom.parts {K : Type} : Atom K → List (Polynomial K)
  | .symbol _ => []
  | .call _ _ arguments => arguments
  | .group _ body => [body]

/-- A sum is inside of itself, and whatever is inside of a part of one of its atoms is inside of it. -/
inductive Polynomial.Inside {K : Type} (q : Polynomial K) : Polynomial K → Prop
  | refl : Inside q q
  | part {p r : Polynomial K} {t : Monomial K × K} {f : Atom K × Int} (ht : t ∈ p) (hf : f ∈ t.1)
      (hr : r ∈ f.1.parts) (h : Inside q r) : Inside q p

theorem Polynomial.Inside.trans {K : Type} {p q r : Polynomial K} (hpq : p.Inside q)
    (hqr : q.Inside r) : p.Inside r := by
  induction hqr with
  | refl => exact hpq
  | part ht hf hr _ ih => exact .part ht hf hr ih

/-- A function has an argument that is no number, and a group has several terms. -/
def Atom.Reduced : Atom Float → Prop
  | .symbol _ => True
  | .call _ _ arguments => ∃ q ∈ arguments, Polynomial.constant? q = none
  | .group _ body => 2 ≤ body.length

/-- No term and no factor could be left out. -/
structure Polynomial.Reduced (p : Formula) : Prop where
  coefficients : ∀ t ∈ p, Scalar.eq t.2 Scalar.zero = false
  exponents : ∀ t ∈ p, ∀ f ∈ t.1, f.2 ≠ 0
  atoms : ∀ t ∈ p, ∀ f ∈ t.1, f.1.Reduced

/-! ## Reduced at every depth -/

def Polynomial.AllReduced (p : Formula) : Prop :=
  ∀ q : Formula, q.Inside p → q.Reduced

def Atom.AllReduced (a : Atom Float) : Prop :=
  a.Reduced ∧ ∀ r ∈ a.parts, r.AllReduced

def Monomial.AllReduced (m : Monomial Float) : Prop :=
  ∀ f ∈ m, f.2 ≠ 0 ∧ f.1.AllReduced

theorem Polynomial.allReduced_iff {p : Formula} :
    p.AllReduced ↔ ∀ t ∈ p, Scalar.eq t.2 Scalar.zero = false ∧ Monomial.AllReduced t.1 := by
  constructor
  · intro h t ht
    have hp := h p .refl
    refine ⟨hp.coefficients t ht, fun f hf => ⟨hp.exponents t ht f hf, hp.atoms t ht f hf, ?_⟩⟩
    exact fun r hr q hq => h q (.part ht hf hr hq)
  · intro h q hq
    cases hq with
    | refl =>
        exact ⟨fun t ht => (h t ht).1, fun t ht f hf => ((h t ht).2 f hf).1,
          fun t ht f hf => ((h t ht).2 f hf).2.1⟩
    | part ht hf hr hq => exact ((h _ ht).2 _ hf).2.2 _ hr q hq

namespace Atom

theorem allReduced_symbol (name : String) : (symbol name).AllReduced :=
  ⟨trivial, List.forall_mem_nil _⟩

theorem allReduced_ofCall {name : String} {ps : List Formula} (h : ∀ p ∈ ps, p.AllReduced)
    (hvaries : ∃ p ∈ ps, Polynomial.constant? p = none) : (ofCall name ps).AllReduced :=
  ⟨hvaries, h⟩

theorem allReduced_ofGroup {p : Formula} (h : p.AllReduced) (hmany : 2 ≤ p.length) :
    (ofGroup p).AllReduced :=
  ⟨hmany, List.forall_mem_singleton.mpr h⟩

end Atom

/-! ## Products of factors -/

namespace Monomial

variable {a : Atom Float} {m n p : Monomial Float}

theorem AllReduced.mulAtom {e : Int} (hm : m.AllReduced) (ha : a.AllReduced)
    (h : Monomial.mulAtom a e m = some n) : n.AllReduced := by
  intro f hf
  rcases changed_of_mulAtom h f hf with hmem | ⟨hne, heq | ⟨g, hg, heq⟩⟩
  · exact hm f hmem
  · rw [heq]
    exact ⟨hne, ha⟩
  · rw [heq]
    exact ⟨hne, (hm g hg).2⟩

theorem AllReduced.mul (hm : m.AllReduced) (hn : n.AllReduced)
    (h : Monomial.mul m n = some p) : p.AllReduced := by
  induction n generalizing m with
  | nil =>
      cases h
      exact hm
  | cons f n ih =>
      obtain ⟨hf, hn⟩ := List.forall_mem_cons.mp hn
      rw [Monomial.mul, List.foldlM_cons] at h
      obtain ⟨m', hm', hp⟩ := Option.bind_eq_some_iff.mp h
      exact ih (hm.mulAtom hf.2 hm') hn hp

theorem AllReduced.pow {k : Int} (hm : m.AllReduced) (hk : k ≠ 0)
    (h : Monomial.pow m k = some p) : p.AllReduced := by
  rw [eq_map_of_pow h]
  intro f hf
  obtain ⟨g, hg, rfl⟩ := List.mem_map.mp hf
  exact ⟨Int.mul_ne_zero (hm g hg).1 hk, (hm g hg).2⟩

end Monomial

namespace Polynomial

variable {p q r : Formula}

/-! ## Operations -/

theorem allReduced_gather {terms : List (Monomial Float × Float)}
    (h : ∀ t ∈ terms, Monomial.AllReduced t.1) : AllReduced (gather terms) := by
  refine allReduced_iff.mpr fun t ht => ⟨?_, ?_⟩
  · simpa using (List.mem_filter.mp ht).2
  · obtain ⟨s, hs, heq⟩ := exists_of_mem_gather ht
    rw [heq]
    exact h s hs

theorem allReduced_term {m : Monomial Float} (c : Float) (hm : m.AllReduced) :
    AllReduced (term c m) :=
  allReduced_gather (List.forall_mem_singleton.mpr hm)

theorem allReduced_constant (c : Float) : AllReduced (constant c) :=
  allReduced_term c (List.forall_mem_nil _)

theorem allReduced_ofAtom {a : Atom Float} (ha : a.AllReduced) : AllReduced (ofAtom a) :=
  allReduced_term Scalar.one (List.forall_mem_singleton.mpr ⟨Int.one_ne_zero, ha⟩)

theorem AllReduced.monomial (hp : p.AllReduced) {t : Monomial Float × Float} (ht : t ∈ p) :
    Monomial.AllReduced t.1 :=
  (allReduced_iff.mp hp t ht).2

theorem AllReduced.add (hp : p.AllReduced) (hq : q.AllReduced) : AllReduced (add p q) := by
  refine allReduced_gather fun t ht => ?_
  rcases List.mem_merge.mp ht with hmem | hmem
  · exact hp.monomial hmem
  · exact hq.monomial hmem

theorem AllReduced.scale (hp : p.AllReduced) (c : Float) : AllReduced (scale p c) := by
  refine allReduced_gather fun t ht => ?_
  obtain ⟨s, hs, rfl⟩ := List.mem_map.mp ht
  exact (allReduced_iff.mp hp s hs).2

theorem AllReduced.mul (hp : p.AllReduced) (hq : q.AllReduced) (h : mul p q = some r) :
    AllReduced r := by
  obtain ⟨terms, hterms, rfl⟩ := Option.map_eq_some_iff.mp h
  refine allReduced_gather fun u hu => ?_
  obtain ⟨s, hs, t, ht, hu⟩ := exists_of_mem_products hterms (List.mem_mergeSort.mp hu)
  exact (hp.monomial hs).mul (hq.monomial ht) hu

theorem allReduced_invariant : Invariant AllReduced fun _ => True where
  constant := allReduced_constant
  add := AllReduced.add
  scale := AllReduced.scale
  mul := AllReduced.mul
  power hp hn h := allReduced_term _ ((hp.monomial List.mem_cons_self).pow hn h)
  group hp hmany hn := allReduced_term _
    (List.forall_mem_singleton.mpr ⟨hn, Atom.allReduced_ofGroup hp hmany⟩)
  applied _ hps hvaries := allReduced_ofAtom (Atom.allReduced_ofCall hps hvaries)
  keptName _ := trivial

end Polynomial

theorem Expr.admits_allReduced {value? : Option (String → Float)} :
    Admits Polynomial.AllReduced (fun _ => True) value? fun _ => True where
  name _ _ := Polynomial.allReduced_ofAtom (Atom.allReduced_symbol _)
  neg _ := trivial
  binary _ := ⟨trivial, trivial⟩
  call _ := ⟨trivial, fun _ _ => trivial⟩

/-! ## Numbers and symbols -/

namespace Polynomial

variable {p q : Formula}

/-- Of two different terms, one has a factor. -/
theorem Sorted.exists_factor (h : Sorted p) (hvaries : constant? p = none) :
    ∃ t ∈ p, ∃ f, f ∈ t.1 := by
  match p with
  | [] => cases hvaries
  | [(f :: m, c)] => exact ⟨_, List.mem_cons_self, f, List.mem_cons_self⟩
  | ([], _) :: (f :: m, c) :: _ =>
      exact ⟨_, List.mem_cons_of_mem _ List.mem_cons_self, f, List.mem_cons_self⟩
  | (f :: m, c) :: _ :: _ => exact ⟨_, List.mem_cons_self, f, List.mem_cons_self⟩
  | ([], c) :: ([], d) :: _ =>
      have hlt := (List.pairwise_cons.mp h.terms).1 ([], d) List.mem_cons_self
      rw [Monomial.compare] at hlt
      cases hlt

theorem Sorted.exists_factor_of_length (h : Sorted p) (hmany : 2 ≤ p.length) :
    ∃ t ∈ p, ∃ f, f ∈ t.1 := by
  refine h.exists_factor ?_
  rw [constant?.eq_def]
  split
  · simp at hmany
  · simp at hmany
  · rfl

end Polynomial

/-- There is a symbol at the bottom of every atom. -/
theorem Atom.Built.exists_mentions {a : Atom Float} (ha : a.Built) (hreduced : a.AllReduced) :
    ∃ name, a.Mentions name := by
  induction ha with
  | symbol => exact ⟨_, .symbol⟩
  | call hname hsorted hatoms ih =>
      obtain ⟨⟨q, hq, hvaries⟩, hparts⟩ := hreduced
      obtain ⟨t, ht, f, hf⟩ := (hsorted q hq).exists_factor hvaries
      obtain ⟨name, h⟩ := ih q hq t ht f hf (((hparts q hq).monomial ht) f hf).2
      exact ⟨name, .call hq ht hf h⟩
  | group hmany hsorted hatoms ih =>
      obtain ⟨-, hparts⟩ := hreduced
      obtain ⟨t, ht, f, hf⟩ := hsorted.exists_factor_of_length hmany
      obtain ⟨name, h⟩ := ih t ht f hf (((List.forall_mem_singleton.mp hparts).monomial ht) f hf).2
      exact ⟨name, .group ht hf h⟩

theorem Atom.Built.parts {a : Atom Float} (ha : a.Built) : ∀ r ∈ a.parts, Polynomial.Built r := by
  cases ha with
  | symbol => exact List.forall_mem_nil _
  | call hname hsorted hatoms => exact fun r hr => (hsorted r hr).built (hatoms r hr)
  | group hmany hsorted hatoms => exact List.forall_mem_singleton.mpr (hsorted.built hatoms)

namespace Polynomial

variable {p q : Formula}

/-- A sum is a number exactly if there is no symbol in it. -/
theorem Built.constant?_isSome_iff (hp : p.Built) (hreduced : p.AllReduced) :
    (constant? p).isSome ↔ p.symbols = [] := by
  constructor
  · intro hsome
    refine List.eq_nil_iff_forall_not_mem.mpr fun name hname => ?_
    obtain ⟨t, ht, f, hf, -⟩ := mem_symbols.mp hname
    rw [constant?_eq_none_of_mem ht (List.ne_nil_of_mem hf)] at hsome
    cases hsome
  · intro hnil
    by_contra hnone
    rw [Option.not_isSome_iff_eq_none] at hnone
    obtain ⟨t, ht, f, hf⟩ := hp.sorted.exists_factor hnone
    obtain ⟨name, h⟩ := (hp.atoms t ht f hf).exists_mentions (hreduced.monomial ht f hf).2
    have hmem : name ∈ p.symbols := mem_symbols.mpr ⟨t, ht, f, hf, h⟩
    rw [hnil] at hmem
    cases hmem

theorem Built.inside (hp : p.Built) (h : q.Inside p) : q.Built := by
  induction h with
  | refl => exact hp
  | part ht hf hr _ ih => exact ih ((hp.atoms _ ht _ hf).parts _ hr)

end Polynomial

/-- Every sum in an expansion is reduced, at whatever depth: no coefficient and no exponent is zero,
every group has at least two terms, and every function has an argument that is no number. So a sum is
a number exactly if there is no symbol in it. -/
theorem Formula.reduced_at_every_depth {text : String} {registry : Registry}
    {value? : Option (String → Float)} {p : Formula} (h : ofText text registry value? = .ok p) :
    ∀ q : Formula, q.Inside p →
      q.Reduced ∧ ((Polynomial.constant? q).isSome ↔ q.symbols = []) := by
  intro q hq
  obtain ⟨e, -, hexpand⟩ := ofText_eq_ok h
  have hreduced : q.AllReduced := fun r hr =>
    Expr.admits_allReduced.expand Polynomial.allReduced_invariant trivial hexpand r (hr.trans hq)
  exact ⟨hreduced q .refl, ((built_of_ofText h).inside hq).constant?_isSome_iff hreduced⟩

/-- The sum of two symbols. -/
def Formula.twoSymbols : Formula :=
  [([(.symbol "x1", 1)], Scalar.one), ([(.symbol "x2", 1)], Scalar.one)]

theorem Polynomial.add_symbols :
    add (ofAtom (.symbol "x1")) (ofAtom (.symbol "x2")) = Formula.twoSymbols := by
  have hone : Scalar.eq (Scalar.one : Float) Scalar.zero = false := by decide
  have hcompare : Monomial.compare [((.symbol "x1" : Atom Float), 1)] [(.symbol "x2", 1)] = .lt := by
    decide
  simp [ofAtom_eq_single, add, precedes, gather, absorb, hcompare, hone, Formula.twoSymbols]

/-- The ninth power of a sum is not multiplied out. -/
theorem Polynomial.pow_twoSymbols_nine :
    pow Formula.twoSymbols (constant 9) =
      some [([(Atom.ofGroup Formula.twoSymbols, 9)], Scalar.one)] := by
  have hnine : constant? (constant (9 : Float)) = some 9 := by
    rw [constant, term, gather_eq_single (by decide)]
    rfl
  have hexponent : Coefficient.exponent? (9 : Float) = some 9 := by decide
  have hgroup : powInt Formula.twoSymbols 9 =
      some (term Scalar.one [(Atom.ofGroup Formula.twoSymbols, 9)]) := rfl
  rw [pow, hnine]
  show (Coefficient.exponent? (9 : Float)).bind (powInt Formula.twoSymbols) = _
  rw [hexponent, Option.bind_some, hgroup, term, gather_eq_single (by decide)]

/-- A group stands in a power, and the sum in it is not a number either. -/
theorem Formula.reduced_at_every_depth_group :
    ∃ p : Formula, ofText "(x1 + x2)^c1" (.empty "plain" .var) (some fun _ => 9) = .ok p ∧
      twoSymbols.Inside p ∧ p.length = 1 ∧ p.Reduced ∧ p.symbols ≠ [] ∧
      twoSymbols.Reduced ∧ twoSymbols.symbols ≠ [] := by
  have h : ofText "(x1 + x2)^c1" (.empty "plain" .var) (some fun _ => 9) =
      .ok [([(Atom.ofGroup twoSymbols, 9)], Scalar.one)] := by
    refine ofText_of_parse
      (e := .binary .pow (.binary .add (.name "x1") (.name "x2")) (.name "c1")) (by cbv) ?_
    have hexpand : Polynomial.binary .pow (Polynomial.binary .add
        (Polynomial.ofAtom (.symbol "x1")) (Polynomial.ofAtom (.symbol "x2")))
        (Polynomial.constant 9) = [([(Atom.ofGroup twoSymbols, 9)], Scalar.one)] := by
      rw [Polynomial.binary, Polynomial.binary?, Polynomial.binary, Polynomial.binary?,
        Option.getD_some, Polynomial.add_symbols, Polynomial.pow_twoSymbols_nine, Option.getD_some]
    simp only [Expr.expand, bind, Except.bind]
    exact congrArg Except.ok hexpand
  have hinside : twoSymbols.Inside [([(Atom.ofGroup twoSymbols, 9)], Scalar.one)] :=
    .part List.mem_cons_self List.mem_cons_self List.mem_cons_self .refl
  obtain ⟨hpower, hpowerNumber⟩ := reduced_at_every_depth h _ .refl
  obtain ⟨hsum, hsumNumber⟩ := reduced_at_every_depth h _ hinside
  refine ⟨_, h, hinside, rfl, hpower, fun hnil => ?_, hsum, fun hnil => ?_⟩
  · cases hpowerNumber.mpr hnil
  · cases hsumNumber.mpr hnil

end SymbolicRegression
