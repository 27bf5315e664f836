import SymbolicRegression.Proofs.Expansion.Arithmetic

/-!
# Products that are not carried out

A product of monomials is given up when the exponents of an atom in both of them add up to more than
fits. That depends on finding the atom, and a factor is found only if every factor before it comes
before it in the order as well. Multiplying by other factors keeps it that way.
-/

namespace SymbolicRegression

variable {K F : Type} [Coefficient K] [Field F] {R : Reading K F} {x y : Atom K} {d e : Int}

namespace Monomial

/-- The exponent of the atom is `d`, and the search for the atom arrives there. -/
def Holds (x : Atom K) (d : Int) (m : Monomial K) : Prop :=
  ∃ before after, m = before ++ (x, d) :: after ∧
    ∀ f ∈ before, Coefficient.compareAtoms x f.1 = .gt

theorem holds_single : Holds x d [(x, d)] :=
  ⟨[], [], rfl, List.forall_mem_nil _⟩

theorem holds_cons {f : Atom K × Int} {m : Monomial K}
    (hf : Coefficient.compareAtoms x f.1 = .gt) (h : Holds x d m) : Holds x d (f :: m) := by
  obtain ⟨before, after, rfl, hbefore⟩ := h
  exact ⟨f :: before, after, rfl, List.forall_mem_cons.mpr ⟨hf, hbefore⟩⟩

/-- A factor that is put in front comes before the atom, or has disappeared. -/
theorem holds_factor (hxy : Coefficient.compareAtoms x y = .gt) {m : Monomial K}
    (h : Holds x d m) : Holds x d (if e = 0 then m else (y, e) :: m) := by
  split
  · exact h
  · exact holds_cons hxy h

theorem mulAtom_eq_none (hx : Coefficient.compareAtoms x x = .eq)
    (hlarge : isExponent (d + e) = false) {m : Monomial K} (h : Holds x d m) :
    mulAtom x e m = none := by
  obtain ⟨before, after, rfl, hbefore⟩ := h
  induction before with
  | nil =>
      rw [List.nil_append, mulAtom, hx]
      simp only [hlarge, Bool.false_eq_true, if_false]
  | cons f before ih =>
      obtain ⟨hf, hbefore⟩ := List.forall_mem_cons.mp hbefore
      rw [List.cons_append, mulAtom, hf]
      simp only [ih hbefore, Option.map_none]

theorem Holds.mulAtom (hxy : Coefficient.compareAtoms x y = .gt)
    (hyx : Coefficient.compareAtoms y x ≠ .eq) {m n : Monomial K} (h : Holds x d m)
    (hn : Monomial.mulAtom y e m = some n) : Holds x d n := by
  obtain ⟨before, after, rfl, hbefore⟩ := h
  induction before generalizing n with
  | nil =>
      have hhere : Holds x d ((x, d) :: after) := ⟨[], after, rfl, List.forall_mem_nil _⟩
      rw [List.nil_append, Monomial.mulAtom] at hn
      cases hcompare : Coefficient.compareAtoms y x with
      | lt =>
          simp only [hcompare] at hn
          split at hn
          · cases hn
            exact holds_factor hxy hhere
          · cases hn
      | eq => exact absurd hcompare hyx
      | gt =>
          simp only [hcompare] at hn
          obtain ⟨rest, -, rfl⟩ := Option.map_eq_some_iff.mp hn
          exact ⟨[], rest, rfl, List.forall_mem_nil _⟩
  | cons f before ih =>
      have hhere : Holds x d (before ++ (x, d) :: after) :=
        ⟨before, after, rfl, (List.forall_mem_cons.mp hbefore).2⟩
      obtain ⟨hf, hbefore⟩ := List.forall_mem_cons.mp hbefore
      rw [List.cons_append, Monomial.mulAtom] at hn
      cases hcompare : Coefficient.compareAtoms y f.1 with
      | lt =>
          simp only [hcompare] at hn
          split at hn
          · cases hn
            exact holds_factor hxy (holds_cons hf hhere)
          · cases hn
      | eq =>
          simp only [hcompare] at hn
          split at hn
          · cases hn
            exact holds_factor hf hhere
          · cases hn
      | gt =>
          simp only [hcompare] at hn
          obtain ⟨rest, hrest, rfl⟩ := Option.map_eq_some_iff.mp hn
          exact holds_cons hf (ih hbefore hrest)

theorem mul_cons (m : Monomial K) (f : Atom K × Int) (n : Monomial K) :
    mul m (f :: n) = (mulAtom f.1 f.2 m).bind fun m' => mul m' n := by
  rw [mul, List.foldlM_cons]
  rfl

/-- The exponents of an atom that both factors hold do not fit, so there is no product. -/
theorem mul_eq_none (hR : R.Exact) (hx : Coefficient.compareAtoms x x = .eq)
    (hlarge : isExponent (d + e) = false) {m n : Monomial K} (hm : Holds x d m)
    (hn : Holds x e n) : mul m n = none := by
  obtain ⟨before, after, rfl, hbefore⟩ := hn
  induction before generalizing m with
  | nil => rw [List.nil_append, mul_cons, mulAtom_eq_none hx hlarge hm, Option.bind_none]
  | cons f before ih =>
      obtain ⟨hf, hbefore⟩ := List.forall_mem_cons.mp hbefore
      have hne : Coefficient.compareAtoms f.1 x ≠ .eq := by
        intro h
        rw [hR.atoms _ _ h, hx] at hf
        cases hf
      rw [List.cons_append, mul_cons]
      cases hmul : mulAtom f.1 f.2 m with
      | none => rfl
      | some m' =>
          rw [Option.bind_some]
          exact ih (hm.mulAtom hf hne hmul) hbefore

/-- A power of one atom times that of another. -/
theorem exists_mul_single (hxy : Coefficient.compareAtoms x y ≠ .eq) (hd : isExponent d = true)
    (hne : d ≠ 0) : ∃ m, mul [(y, e)] [(x, d)] = some m ∧ Holds x d m ∧
      ∀ f ∈ m, f = (y, e) ∨ f = (x, d) := by
  rw [mul_cons, Monomial.mulAtom]
  cases hcompare : Coefficient.compareAtoms x y with
  | lt =>
      refine ⟨[(x, d), (y, e)], ?_, ⟨[], [(y, e)], rfl, List.forall_mem_nil _⟩, ?_⟩
      · simp only [hd, hne, if_true, if_false, Option.bind_some]
        rfl
      · intro f hf
        simpa [or_comm] using hf
  | eq => exact absurd hcompare hxy
  | gt =>
      refine ⟨[(y, e), (x, d)], ?_, holds_cons hcompare holds_single, ?_⟩
      · simp only [mulAtom, hd, hne, if_true, if_false, Option.map_some, Option.bind_some]
        rfl
      · intro f hf
        simpa using hf

omit [Coefficient K] in
theorem pow_of_fits {n : Int} {m : Monomial K} (hfits : ∀ f ∈ m, isExponent (f.2 * n) = true) :
    pow m n = some (m.map fun f => (f.1, f.2 * n)) := by
  induction m with
  | nil => rfl
  | cons f m ih =>
      obtain ⟨hf, hfits⟩ := List.forall_mem_cons.mp hfits
      have hrest := ih hfits
      rw [pow] at hrest ⊢
      simp only [List.mapM_cons, hrest, hf, if_true]
      rfl

theorem Holds.map {n : Int} {m : Monomial K} (h : Holds x d m) :
    Holds x (d * n) (m.map fun f => (f.1, f.2 * n)) := by
  obtain ⟨before, after, rfl, hbefore⟩ := h
  refine ⟨before.map fun f => (f.1, f.2 * n), after.map fun f => (f.1, f.2 * n), ?_, ?_⟩
  · rw [List.map_append, List.map_cons]
  · intro f hf
    obtain ⟨g, hg, rfl⟩ := List.mem_map.mp hf
    exact hbefore g hg

end Monomial

namespace Polynomial

/-! ## Sums of one term -/

theorem gather_single (hR : R.Exact) {c : K} (hc : R.toField c ≠ 0) (m : Monomial K) :
    gather [(m, c)] = [(m, c)] := by
  have hne : Scalar.eq c Scalar.zero = false := by
    rw [Bool.eq_false_iff, ne_eq, hR.eq, hR.zero]
    exact hc
  simp only [gather, List.foldl_cons, List.foldl_nil, absorb, List.reverse_singleton,
    List.filter_cons, List.filter_nil, hne, Bool.not_false, if_true]

theorem term_eq (hR : R.Exact) {c : K} (hc : R.toField c ≠ 0) (m : Monomial K) :
    term c m = [(m, c)] :=
  gather_single hR hc m

theorem ofAtom_eq (hR : R.Exact) (a : Atom K) : ofAtom a = [([(a, 1)], Scalar.one)] := by
  refine term_eq hR ?_ _
  rw [hR.one]
  exact one_ne_zero

theorem mul_single (s t : Monomial K × K) :
    mul [s] [t] = (mulTerms s t).map fun u => gather [u] := by
  rw [mul, products]
  cases hmul : mulTerms s t with
  | none => simp [hmul]
  | some u => simp [hmul]

/-- The sum is a single term that holds the atom, and all of its exponents fit with either sign. -/
def Holds (R : Reading K F) (x : Atom K) (d : Int) (p : Polynomial K) : Prop :=
  ∃ m c, p = [(m, c)] ∧ R.toField c ≠ 0 ∧ Monomial.Holds x d m ∧
    ∀ f ∈ m, f.2.natAbs ≤ 2147483647

theorem powInt_ofAtom (hR : R.Exact) {n : Int} (hne : n ≠ 0) (hfits : isExponent n = true)
    (x : Atom K) :
    ∃ c, R.toField c ≠ 0 ∧ powInt (ofAtom x) n = some [([(x, n)], c)] := by
  have hone : R.toField Scalar.one ≠ 0 := by
    rw [hR.one]
    exact one_ne_zero
  have hc : R.toField (Scalar.powInt Scalar.one n) ≠ 0 := by
    rw [Scalar.toField_powInt hR (fun _ => hone)]
    exact zpow_ne_zero _ hone
  have hpow : Monomial.pow [(x, (1 : Int))] n = some [(x, n)] := by
    rw [Monomial.pow_of_fits, List.map_cons, List.map_nil, one_mul]
    rw [List.forall_mem_singleton, one_mul]
    exact hfits
  refine ⟨_, hc, ?_⟩
  rw [powInt, if_neg hne, ofAtom_eq hR]
  simp only [constant?, single?, hpow, Option.map_some, term_eq hR hc]

/-- A power with a symbol as its base and an integer as its exponent. -/
theorem pow_ofAtom (hR : R.Exact) {k : K} {n : Int} (hn : Coefficient.exponent? k = some n)
    (hk : R.toField k ≠ 0) (x : Atom K) : pow (ofAtom x) (constant k) = powInt (ofAtom x) n := by
  rw [ofAtom_eq hR, pow, constant, term_eq hR hk]
  simp only [constant?, hn, Option.bind_some]

theorem pow_ofAtom_ofAtom (hR : R.Exact) (x y : Atom K) : pow (ofAtom x) (ofAtom y) = none := by
  rw [pow, ofAtom_eq hR, ofAtom_eq hR]
  rfl

/-- Another symbol times a power. -/
theorem exists_ofAtom_mul (hR : R.Exact) {x y : Atom K} (hxy : Coefficient.compareAtoms x y ≠ .eq)
    {c : K} (hc : R.toField c ≠ 0) (hne : d ≠ 0) (hd : d.natAbs ≤ 2147483647) :
    ∃ p, mul (ofAtom y) [([(x, d)], c)] = some p ∧ Holds R x d p := by
  have hfits : isExponent d = true := by
    rw [isExponent, Bool.and_eq_true, decide_eq_true_eq, decide_eq_true_eq]
    omega
  obtain ⟨m, hm, hholds, hmem⟩ := Monomial.exists_mul_single (e := 1) hxy hfits hne
  have hcoefficient : R.toField (Scalar.one * c) ≠ 0 := by
    rw [hR.mul, hR.one, one_mul]
    exact hc
  refine ⟨[(m, Scalar.one * c)], ?_, m, _, rfl, hcoefficient, hholds, fun f hf => ?_⟩
  · rw [ofAtom_eq hR, mul_single, mulTerms, hm, Option.map_some, Option.map_some,
      gather_single hR hcoefficient]
  · rcases hmem f hf with rfl | rfl
    · have hone : (1 : Int).natAbs ≤ 2147483647 := by decide
      exact hone
    · exact hd

/-- The reciprocal of a term. -/
theorem Holds.exists_reciprocal (hR : R.Exact) {x : Atom K} {p : Polynomial K}
    (h : Holds R x d p) : ∃ q, powInt p (-1) = some q ∧ Holds R x (-d) q := by
  obtain ⟨m, c, rfl, hc, hm, hsmall⟩ := h
  have hfits : ∀ f ∈ m, isExponent (f.2 * -1) = true := by
    intro f hf
    have hf' := hsmall f hf
    rw [isExponent, Bool.and_eq_true, decide_eq_true_eq, decide_eq_true_eq]
    omega
  have hcoefficient : R.toField (Scalar.powInt c (-1)) ≠ 0 := by
    rw [Scalar.toField_powInt hR (fun _ => hc)]
    exact zpow_ne_zero _ hc
  have hconstant : constant? [(m, c)] = none := by
    obtain ⟨before, after, rfl, -⟩ := hm
    cases before with
    | nil => rfl
    | cons f before => rfl
  refine ⟨[(m.map fun f => (f.1, f.2 * -1), Scalar.powInt c (-1))], ?_, _, _, rfl, hcoefficient,
    ?_, ?_⟩
  · rw [powInt, if_neg (by decide), hconstant]
    simp only [single?, Monomial.pow_of_fits hfits, Option.map_some, term_eq hR hcoefficient]
  · have hmap := hm.map (n := -1)
    rwa [mul_neg_one] at hmap
  · intro f hf
    obtain ⟨g, hg, rfl⟩ := List.mem_map.mp hf
    rw [mul_neg_one, Int.natAbs_neg]
    exact hsmall g hg

theorem Holds.mul_eq_none (hR : R.Exact) {x : Atom K} (hx : Coefficient.compareAtoms x x = .eq)
    (hlarge : isExponent (d + e) = false) {p q : Polynomial K} (hp : Holds R x d p)
    (hq : Holds R x e q) : mul p q = none := by
  obtain ⟨m, c, rfl, -, hm, -⟩ := hp
  obtain ⟨n, k, rfl, -, hn, -⟩ := hq
  rw [mul_single, mulTerms, Monomial.mul_eq_none hR hx hlarge hm hn]
  rfl

theorem Holds.div_eq_none (hR : R.Exact) {x : Atom K} (hx : Coefficient.compareAtoms x x = .eq)
    (hlarge : isExponent (d - e) = false) {p q : Polynomial K} (hp : Holds R x d p)
    (hq : Holds R x e q) : div p q = none := by
  obtain ⟨s, hs, hholds⟩ := hq.exists_reciprocal hR
  rw [div, hs, Option.bind_some]
  rw [sub_eq_add_neg] at hlarge
  exact hp.mul_eq_none hR hx hlarge hholds

end Polynomial

end SymbolicRegression
