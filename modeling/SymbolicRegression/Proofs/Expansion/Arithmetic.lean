import Mathlib.Tactic.Ring
import SymbolicRegression.Proofs.Expansion.Reading

/-!
# Sums of monomials compute

Every operation on sums of monomials has the value of the operation on their values. Two things could
go wrong where atoms are zero, and one invariant excludes both: an atom that stands below a fraction
bar is not zero. Without it exponents of one atom could not be added, as `x^1` and `x^(-1)` are merged
to nothing, and a power could not be taken factor by factor. The invariant is kept because the only
operation that moves atoms below the bar is a power with a negative exponent, whose base is not zero;
then none of its factors is.

The values of the atoms may be any here. What they are is settled when expressions are expanded.
-/

namespace SymbolicRegression

variable {K F : Type} [Coefficient K] [Field F] {R : Reading K F} {v : Atom K → F}

/-! ## Numbers -/

namespace Scalar

theorem toField_powNatFrom (hR : R.Exact) (x : K) (n : Nat) :
    ∀ accumulated : K, R.toField (powNatFrom accumulated x n) =
      R.toField accumulated * R.toField x ^ n := by
  induction n using Nat.strong_induction_on generalizing x with
  | _ n ih =>
      intro accumulated
      have hstart : R.toField (if n % 2 = 1 then accumulated * x else accumulated) =
          R.toField accumulated * R.toField x ^ (n % 2) := by
        rcases Nat.mod_two_eq_zero_or_one n with heven | hodd
        · rw [if_neg (by omega), heven, pow_zero, mul_one]
        · rw [if_pos hodd, hodd, pow_one, hR.mul]
      rw [powNatFrom]
      split
      · next hhalf =>
          have hn : n % 2 = n := by omega
          rw [hstart, hn]
      · next hhalf =>
          rw [ih (n / 2) (by omega) (x * x), hstart, hR.mul, mul_assoc, ← pow_two, ← pow_mul,
            ← pow_add, Nat.mod_add_div]

theorem toField_powInt (hR : R.Exact) {c : K} {n : Int} (hc : n < 0 → R.toField c ≠ 0) :
    R.toField (powInt c n) = R.toField c ^ n := by
  have hnat : R.toField (powNat c n.natAbs) = R.toField c ^ n.natAbs := by
    rw [powNat, toField_powNatFrom hR, hR.one, one_mul]
  rw [powInt]
  split
  · next hn =>
      have hne : R.toField (powNat c n.natAbs) ≠ 0 := by
        rw [hnat]
        exact pow_ne_zero _ (hc hn)
      have habs : n = -(n.natAbs : Int) := by omega
      rw [hR.div _ _ hne, hR.one, hnat, one_div]
      conv => rhs; rw [habs]
      rw [zpow_neg, zpow_natCast]
  · next hn =>
      have habs : n = (n.natAbs : Int) := by omega
      rw [hnat]
      conv => rhs; rw [habs]
      rw [zpow_natCast]

end Scalar

/-! ## Products -/

namespace Monomial

/-- No atom below the fraction bar is zero. -/
def Regular (v : Atom K → F) (m : Monomial K) : Prop :=
  ∀ f ∈ m, f.2 < 0 → v f.1 ≠ 0

omit [Coefficient K] in
theorem regular_nil : Regular v ([] : Monomial K) :=
  List.forall_mem_nil _

omit [Coefficient K] in
theorem regular_cons {f : Atom K × Int} {m : Monomial K} :
    Regular v (f :: m) ↔ (f.2 < 0 → v f.1 ≠ 0) ∧ Regular v m :=
  List.forall_mem_cons

omit [Coefficient K] in
@[simp] theorem value_nil : value v ([] : Monomial K) = 1 :=
  rfl

omit [Coefficient K] in
@[simp] theorem value_cons (f : Atom K × Int) (m : Monomial K) :
    value v (f :: m) = v f.1 ^ f.2 * value v m :=
  rfl

theorem zpow_add_of_regular {a : F} {d e : Int} (hd : d < 0 → a ≠ 0) (he : e < 0 → a ≠ 0) :
    a ^ (d + e) = a ^ d * a ^ e := by
  by_cases ha : a = 0
  · have hd' : ¬ d < 0 := fun h => hd h ha
    have he' : ¬ e < 0 := fun h => he h ha
    exact zpow_add' (by omega)
  · exact zpow_add₀ ha d e

theorem eq_of_compare (hR : R.Exact) : ∀ {m n : Monomial K}, compare m n = .eq → m = n
  | [], [], _ => rfl
  | [], _ :: _, h => by cases h
  | _ :: _, [], h => by cases h
  | (a, d) :: m, (b, e) :: n, h => by
      rw [compare, Ordering.then_eq_eq, Ordering.then_eq_eq] at h
      obtain ⟨⟨hatom, hexponent⟩, hrest⟩ := h
      rw [hR.atoms a b hatom, Std.LawfulEqOrd.eq_of_compare hexponent, eq_of_compare hR hrest]

theorem mulAtom_eq_some (hR : R.Exact) {a : Atom K} {e : Int} (he : e < 0 → v a ≠ 0) :
    ∀ {m m' : Monomial K}, Regular v m → mulAtom a e m = some m' →
      Regular v m' ∧ value v m' = v a ^ e * value v m
  | [], m', _, h => by
      rw [mulAtom] at h
      split at h
      · cases h
        split
        · next hzero => exact ⟨regular_nil, by rw [hzero, zpow_zero, one_mul]⟩
        · exact ⟨regular_cons.mpr ⟨he, regular_nil⟩, rfl⟩
      · cases h
  | (b, d) :: m, m', hm, h => by
      obtain ⟨hb, hrest⟩ := regular_cons.mp hm
      rw [mulAtom] at h
      split at h
      · split at h
        · cases h
          split
          · next hzero => exact ⟨hm, by rw [hzero, zpow_zero, one_mul]⟩
          · exact ⟨regular_cons.mpr ⟨he, hm⟩, rfl⟩
        · cases h
      · next hcompare =>
          obtain rfl := hR.atoms a b hcompare
          have hsum : v a ^ (d + e) = v a ^ d * v a ^ e := zpow_add_of_regular hb he
          split at h
          · cases h
            split
            · next hzero =>
                rw [hzero, zpow_zero] at hsum
                refine ⟨hrest, ?_⟩
                rw [value_cons, ← mul_assoc, mul_comm (v a ^ e), ← hsum, one_mul]
            · refine ⟨regular_cons.mpr ⟨fun hneg => ?_, hrest⟩, ?_⟩
              · have hneg' : d + e < 0 := hneg
                by_cases hd : d < 0
                · exact hb hd
                · exact he (by omega)
              · rw [value_cons, value_cons, ← mul_assoc, mul_comm (v a ^ e), hsum]
          · cases h
      · obtain ⟨n, hn, rfl⟩ := Option.map_eq_some_iff.mp h
        obtain ⟨hregular, hvalue⟩ := mulAtom_eq_some hR he hrest hn
        refine ⟨regular_cons.mpr ⟨hb, hregular⟩, ?_⟩
        rw [value_cons, hvalue, value_cons, mul_left_comm]

theorem mul_eq_some (hR : R.Exact) {n : Monomial K} :
    ∀ {m p : Monomial K}, Regular v m → Regular v n → mul m n = some p →
      Regular v p ∧ value v p = value v m * value v n := by
  induction n with
  | nil =>
      intro m p hm _ h
      cases h
      exact ⟨hm, by rw [value_nil, mul_one]⟩
  | cons f n ih =>
      intro m p hm hn h
      obtain ⟨hf, hrest⟩ := regular_cons.mp hn
      rw [mul, List.foldlM_cons] at h
      obtain ⟨m', hm', hp⟩ := Option.bind_eq_some_iff.mp h
      obtain ⟨hregular, hvalue⟩ := mulAtom_eq_some hR hf hm hm'
      obtain ⟨hp', hvalue'⟩ := ih hregular hrest hp
      refine ⟨hp', ?_⟩
      rw [hvalue', hvalue, value_cons]
      ring

omit [Coefficient K] in
/-- A product that is not zero has no factor that is zero. -/
theorem ne_zero_of_value_ne_zero {m : Monomial K} (h : value v m ≠ 0) :
    ∀ f ∈ m, f.2 ≠ 0 → v f.1 ≠ 0 := by
  induction m with
  | nil => exact List.forall_mem_nil _
  | cons g m ih =>
      rw [value_cons] at h
      rw [List.forall_mem_cons]
      refine ⟨fun hg hzero => ?_, ih (right_ne_zero_of_mul h)⟩
      rw [hzero, zero_zpow _ hg, zero_mul] at h
      exact h rfl

omit [Coefficient K] in
theorem pow_eq_some {n : Int} :
    ∀ {m p : Monomial K}, Regular v m → (n < 0 → value v m ≠ 0) → pow m n = some p →
      Regular v p ∧ value v p = value v m ^ n
  | [], p, _, _, h => by
      rw [pow, List.mapM_nil] at h
      cases h
      exact ⟨regular_nil, by rw [value_nil, one_zpow]⟩
  | (a, e) :: m, p, hm, hne, h => by
      obtain ⟨ha, hrest⟩ := regular_cons.mp hm
      rw [pow, List.mapM_cons] at h
      obtain ⟨g, hg, h⟩ := Option.bind_eq_some_iff.mp h
      obtain ⟨q, hq, h⟩ := Option.bind_eq_some_iff.mp h
      cases h
      change (if isExponent (e * n) then some (a, e * n) else none) = some g at hg
      split at hg
      · cases hg
        obtain ⟨hregular, hvalue⟩ := pow_eq_some hrest
          (fun hn => right_ne_zero_of_mul (hne hn)) hq
        refine ⟨regular_cons.mpr ⟨fun hneg => ?_, hregular⟩, ?_⟩
        · -- a factor that goes below the bar now: either it was there, or the base is not zero
          have hneg' : e * n < 0 := hneg
          by_cases he : e < 0
          · exact ha he
          · have hn : n < 0 := by
              by_contra hn
              exact absurd hneg' (Int.not_lt.mpr (Int.mul_nonneg (by omega) (by omega)))
            refine ne_zero_of_value_ne_zero (hne hn) (a, e) List.mem_cons_self ?_
            rintro rfl
            rw [zero_mul] at hneg'
            exact lt_irrefl 0 hneg'
        · rw [value_cons, hvalue, value_cons, mul_zpow, zpow_mul]
      · cases hg

end Monomial

/-! ## Sums -/

namespace Polynomial

/-- No atom of the sum that stands below a fraction bar is zero. -/
def Regular (v : Atom K → F) (p : List (Monomial K × K)) : Prop :=
  ∀ t ∈ p, Monomial.Regular v t.1

/-- The value of a term. -/
def termValue (toField : K → F) (v : Atom K → F) (t : Monomial K × K) : F :=
  toField t.2 * Monomial.value v t.1

section Value

variable {toField : K → F}

omit [Coefficient K] in
@[simp] theorem value_nil : value toField v ([] : Polynomial K) = 0 :=
  rfl

omit [Coefficient K] in
@[simp] theorem value_cons (t : Monomial K × K) (p : Polynomial K) :
    value toField v (t :: p) = termValue toField v t + value toField v p :=
  rfl

omit [Coefficient K] in
@[simp] theorem value_append (p q : Polynomial K) :
    value toField v (p ++ q) = value toField v p + value toField v q := by
  rw [value, List.map_append, List.sum_append, value, value]

omit [Coefficient K] in
theorem value_perm {p q : Polynomial K} (h : p.Perm q) :
    value toField v p = value toField v q :=
  (h.map _).sum_eq

end Value

/-- The sum has a value, and that is it. -/
structure Represents (R : Reading K F) (v : Atom K → F) (p : Polynomial K) (x : F) : Prop where
  regular : Regular v p
  value_eq : value R.toField v p = x

/-! ### Gathering like terms -/

theorem value_absorb (hR : R.Exact) (terms : List (Monomial K × K)) (t : Monomial K × K) :
    value R.toField v (absorb terms t) = value R.toField v terms + termValue R.toField v t := by
  rw [absorb.eq_def]
  split
  · rw [value_cons, value_nil, zero_add, add_zero]
  · next m c rest =>
      split
      · next hcompare =>
          obtain rfl := Monomial.eq_of_compare hR hcompare
          rw [value_cons, value_cons, termValue, termValue, termValue, hR.add]
          ring
      · rw [value_cons, add_comm]

theorem value_foldl_absorb (hR : R.Exact) (terms : List (Monomial K × K)) :
    ∀ start : List (Monomial K × K), value R.toField v (terms.foldl absorb start) =
      value R.toField v start + value R.toField v terms := by
  induction terms with
  | nil => exact fun _ => by rw [List.foldl_nil, value_nil, add_zero]
  | cons t terms ih =>
      intro start
      rw [List.foldl_cons, ih, value_absorb hR, value_cons, add_assoc]

/-- A term that is dropped has the coefficient zero. -/
theorem value_filter (hR : R.Exact) (terms : List (Monomial K × K)) :
    value R.toField v (terms.filter fun t => !Scalar.eq t.2 Scalar.zero) =
      value R.toField v terms := by
  induction terms with
  | nil => rfl
  | cons t terms ih =>
      rw [List.filter_cons]
      split
      · rw [value_cons, value_cons, ih]
      · next hdropped =>
          have hzero : R.toField t.2 = 0 := by
            rw [← hR.zero]
            exact (hR.eq t.2 Scalar.zero).mp (by simpa using hdropped)
          rw [value_cons, ih, termValue, hzero, zero_mul, zero_add]

theorem value_gather (hR : R.Exact) (terms : List (Monomial K × K)) :
    value R.toField v (gather terms) = value R.toField v terms := by
  rw [gather, value_filter hR, value_perm (List.reverse_perm _), value_foldl_absorb hR, value_nil,
    zero_add]

theorem regular_absorb {terms : List (Monomial K × K)} {t : Monomial K × K}
    (hterms : Regular v terms) (ht : Monomial.Regular v t.1) : Regular v (absorb terms t) := by
  rw [absorb.eq_def]
  split
  · exact List.forall_mem_singleton.mpr ht
  · next m c rest =>
      obtain ⟨hm, hrest⟩ := List.forall_mem_cons.mp hterms
      split
      · exact List.forall_mem_cons.mpr ⟨hm, hrest⟩
      · exact List.forall_mem_cons.mpr ⟨ht, hterms⟩

theorem regular_foldl_absorb {terms : List (Monomial K × K)} :
    ∀ {start : List (Monomial K × K)}, Regular v start → Regular v terms →
      Regular v (terms.foldl absorb start) := by
  induction terms with
  | nil => exact fun h _ => h
  | cons t terms ih =>
      intro start hstart h
      obtain ⟨ht, hterms⟩ := List.forall_mem_cons.mp h
      exact ih (regular_absorb hstart ht) hterms

theorem regular_gather {terms : List (Monomial K × K)} (h : Regular v terms) :
    Regular v (gather terms) := by
  intro t ht
  have hmem := List.mem_reverse.mp (List.mem_filter.mp ht).1
  exact regular_foldl_absorb (List.forall_mem_nil _) h t hmem

theorem represents_gather (hR : R.Exact) {terms : List (Monomial K × K)} {x : F}
    (hregular : Regular v terms) (hvalue : value R.toField v terms = x) :
    Represents R v (gather terms) x :=
  ⟨regular_gather hregular, (value_gather hR terms).trans hvalue⟩

/-! ### Operations -/

theorem represents_term (hR : R.Exact) (c : K) {m : Monomial K} (hm : Monomial.Regular v m) :
    Represents R v (term c m) (R.toField c * Monomial.value v m) :=
  represents_gather hR (List.forall_mem_singleton.mpr hm) (add_zero _)

theorem represents_constant (hR : R.Exact) (c : K) :
    Represents R v (constant c) (R.toField c) := by
  have h := represents_term (v := v) hR c Monomial.regular_nil
  rwa [Monomial.value_nil, mul_one] at h

theorem represents_power (hR : R.Exact) {a : Atom K} {n : Int} (ha : n < 0 → v a ≠ 0) :
    Represents R v (term Scalar.one [(a, n)]) (v a ^ n) := by
  have hregular : Monomial.Regular v [(a, n)] :=
    Monomial.regular_cons.mpr ⟨ha, Monomial.regular_nil⟩
  have hterm := represents_term hR Scalar.one hregular
  rwa [hR.one, one_mul, Monomial.value_cons, Monomial.value_nil, mul_one] at hterm

theorem represents_ofAtom (hR : R.Exact) (a : Atom K) : Represents R v (ofAtom a) (v a) := by
  have hpower := represents_power (v := v) (a := a) (n := 1) hR (fun h => absurd h (by decide))
  rwa [zpow_one] at hpower

/-- A sum that is recognised as a number has the value of that number. -/
theorem Represents.of_constant? (hR : R.Exact) {p : Polynomial K} {x : F} {c : K}
    (hp : Represents R v p x) (h : constant? p = some c) : R.toField c = x := by
  rw [← hp.value_eq]
  rw [constant?.eq_def] at h
  split at h
  · cases h
    rw [hR.zero, value_nil]
  · cases h
    rw [value_cons, value_nil, add_zero, termValue, Monomial.value_nil, mul_one]
  · cases h

theorem Represents.add (hR : R.Exact) {p q : Polynomial K} {x y : F} (hp : Represents R v p x)
    (hq : Represents R v q y) : Represents R v (add p q) (x + y) := by
  have hperm : (List.merge p q precedes).Perm (p ++ q) := List.merge_perm_append precedes
  refine represents_gather hR (fun t ht => ?_) ?_
  · rcases List.mem_append.mp (hperm.mem_iff.mp ht) with h | h
    · exact hp.regular t h
    · exact hq.regular t h
  · rw [value_perm hperm, value_append, hp.value_eq, hq.value_eq]

theorem Represents.scale (hR : R.Exact) {p : Polynomial K} {x : F} (hp : Represents R v p x)
    (k : K) : Represents R v (scale p k) (x * R.toField k) := by
  refine represents_gather hR (fun t ht => ?_) ?_
  · obtain ⟨s, hs, rfl⟩ := List.mem_map.mp ht
    exact hp.regular s hs
  · rw [← hp.value_eq]
    clear hp
    induction p with
    | nil => rw [List.map_nil, value_nil, zero_mul]
    | cons t p ih =>
        rw [List.map_cons, value_cons, ih, value_cons, termValue, termValue, hR.mul]
        ring

theorem Represents.neg (hR : R.Exact) {p : Polynomial K} {x : F} (hp : Represents R v p x) :
    Represents R v (Polynomial.scale p (-Scalar.one)) (-x) := by
  have hnegated := hp.scale hR (-Scalar.one)
  rwa [hR.neg, hR.one, mul_neg_one] at hnegated

theorem mulTerms_eq_some (hR : R.Exact) {s t u : Monomial K × K} (hs : Monomial.Regular v s.1)
    (ht : Monomial.Regular v t.1) (h : mulTerms s t = some u) :
    Monomial.Regular v u.1 ∧
      termValue R.toField v u = termValue R.toField v s * termValue R.toField v t := by
  obtain ⟨m, hm, rfl⟩ := Option.map_eq_some_iff.mp h
  obtain ⟨hregular, hvalue⟩ := Monomial.mul_eq_some hR hs ht hm
  refine ⟨hregular, ?_⟩
  rw [termValue, termValue, termValue, hvalue, hR.mul]
  ring

/-- One term times all the terms of a sum. -/
theorem mapM_mulTerms_eq_some (hR : R.Exact) {s : Monomial K × K}
    (hs : Monomial.Regular v s.1) :
    ∀ {q terms : List (Monomial K × K)}, Regular v q → q.mapM (mulTerms s) = some terms →
      Regular v terms ∧
        value R.toField v terms = termValue R.toField v s * value R.toField v q
  | [], terms, _, h => by
      rw [List.mapM_nil] at h
      cases h
      exact ⟨List.forall_mem_nil _, by rw [value_nil, mul_zero]⟩
  | t :: q, terms, hq, h => by
      obtain ⟨ht, hrest⟩ := List.forall_mem_cons.mp hq
      rw [List.mapM_cons] at h
      obtain ⟨u, hu, h⟩ := Option.bind_eq_some_iff.mp h
      obtain ⟨us, hus, h⟩ := Option.bind_eq_some_iff.mp h
      cases h
      obtain ⟨huRegular, huValue⟩ := mulTerms_eq_some hR hs ht hu
      obtain ⟨husRegular, husValue⟩ := mapM_mulTerms_eq_some hR hs hrest hus
      refine ⟨List.forall_mem_cons.mpr ⟨huRegular, husRegular⟩, ?_⟩
      rw [value_cons, value_cons, huValue, husValue, mul_add]

theorem mapM_rows_eq_some (hR : R.Exact) {q : List (Monomial K × K)} (hq : Regular v q) :
    ∀ {p : List (Monomial K × K)} {rows : List (List (Monomial K × K))}, Regular v p →
      (p.mapM fun s => q.mapM fun t => mulTerms s t) = some rows →
      Regular v rows.flatten ∧
        value R.toField v rows.flatten = value R.toField v p * value R.toField v q
  | [], rows, _, h => by
      rw [List.mapM_nil] at h
      cases h
      exact ⟨List.forall_mem_nil _, by rw [List.flatten_nil, value_nil, zero_mul]⟩
  | s :: p, rows, hp, h => by
      obtain ⟨hs, hrest⟩ := List.forall_mem_cons.mp hp
      rw [List.mapM_cons] at h
      obtain ⟨row, hrow, h⟩ := Option.bind_eq_some_iff.mp h
      obtain ⟨rows', hrows, h⟩ := Option.bind_eq_some_iff.mp h
      cases h
      obtain ⟨hrowRegular, hrowValue⟩ := mapM_mulTerms_eq_some hR hs hq hrow
      obtain ⟨hrowsRegular, hrowsValue⟩ := mapM_rows_eq_some hR hq hrest hrows
      rw [List.flatten_cons]
      refine ⟨List.forall_mem_append.mpr ⟨hrowRegular, hrowsRegular⟩, ?_⟩
      rw [value_append, hrowValue, hrowsValue, value_cons, add_mul]

theorem Represents.mul (hR : R.Exact) {p q r : Polynomial K} {x y : F} (hp : Represents R v p x)
    (hq : Represents R v q y) (h : mul p q = some r) : Represents R v r (x * y) := by
  obtain ⟨terms, hterms, rfl⟩ := Option.map_eq_some_iff.mp h
  obtain ⟨rows, hrows, rfl⟩ := Option.map_eq_some_iff.mp hterms
  obtain ⟨hregular, hvalue⟩ := mapM_rows_eq_some hR hq.regular hp.regular hrows
  have hperm := List.mergeSort_perm rows.flatten precedes
  refine represents_gather hR (fun t ht => hregular t (hperm.mem_iff.mp ht)) ?_
  rw [value_perm hperm, hvalue, hp.value_eq, hq.value_eq]

theorem Represents.powSucc (hR : R.Exact) {p : Polynomial K} {x : F} (hp : Represents R v p x) :
    ∀ {n : Nat} {r : Polynomial K}, powSucc p n = some r → Represents R v r (x ^ (n + 1))
  | 0, r, h => by
      cases h
      rw [zero_add, pow_one]
      exact hp
  | n + 1, r, h => by
      rw [Polynomial.powSucc] at h
      obtain ⟨q, hq, hr⟩ := Option.bind_eq_some_iff.mp h
      rw [pow_succ]
      exact (hp.powSucc hR hq).mul hR hp hr

/-- A single term is raised factor by factor. -/
theorem Represents.powTerm (hR : R.Exact) {m mn : Monomial K} {c : K} {x : F} {n : Int}
    (hp : Represents R v [(m, c)] x) (hx : n < 0 → x ≠ 0) (h : Monomial.pow m n = some mn) :
    Represents R v (term (Scalar.powInt c n) mn) (x ^ n) := by
  have hvalue : R.toField c * Monomial.value v m = x := by
    rw [← hp.value_eq, value_cons, value_nil, add_zero, termValue]
  have hc : n < 0 → R.toField c ≠ 0 := fun hn =>
    left_ne_zero_of_mul (hvalue.symm ▸ hx hn)
  have hm : n < 0 → Monomial.value v m ≠ 0 := fun hn =>
    right_ne_zero_of_mul (hvalue.symm ▸ hx hn)
  obtain ⟨hregular, hpow⟩ := Monomial.pow_eq_some (hp.regular (m, c) List.mem_cons_self) hm h
  rw [← hvalue, mul_zpow, ← Scalar.toField_powInt hR hc, ← hpow]
  exact represents_term hR _ hregular

/-- A power of a sum, whichever way it is taken: as a number, factor by factor, multiplied out or
grouped. -/
theorem Represents.powInt (hR : R.Exact) (hgroup : ∀ p, v (Atom.ofGroup p) = value R.toField v p)
    {p r : Polynomial K} {x : F} {n : Int} (hp : Represents R v p x) (hx : n < 0 → x ≠ 0)
    (h : powInt p n = some r) : Represents R v r (x ^ n) := by
  rw [Polynomial.powInt] at h
  split at h
  · next hn =>
      cases h
      rw [hn, zpow_zero, ← hR.one]
      exact represents_constant hR Scalar.one
  · split at h
    · next c hc =>
        cases h
        have hvalue := hp.of_constant? hR hc
        rw [← hvalue, ← Scalar.toField_powInt hR fun hn => hvalue ▸ hx hn]
        exact represents_constant hR _
    · split at h
      · next m c hsingle =>
          obtain rfl : p = [(m, c)] := by
            rw [single?.eq_def] at hsingle
            split at hsingle
            · cases hsingle
              rfl
            · cases hsingle
          obtain ⟨mn, hmn, rfl⟩ := Option.map_eq_some_iff.mp h
          exact hp.powTerm hR hx hmn
      · split at h
        · next hsmall =>
            obtain ⟨hlow, -⟩ := Bool.and_eq_true_iff.mp hsmall
            have hpos : 1 ≤ n := of_decide_eq_true hlow
            have hn : n = ((n.natAbs - 1 + 1 : Nat) : Int) := by omega
            rw [hn, zpow_natCast]
            exact hp.powSucc hR h
        · cases h
          have hatom : v (Atom.ofGroup p) = x := by rw [hgroup, hp.value_eq]
          rw [← hatom] at hx ⊢
          exact represents_power hR hx

theorem Represents.div (hR : R.Exact) (hgroup : ∀ p, v (Atom.ofGroup p) = value R.toField v p)
    {p q r : Polynomial K} {x y : F} (hp : Represents R v p x) (hq : Represents R v q y)
    (hy : y ≠ 0) (h : div p q = some r) : Represents R v r (x / y) := by
  obtain ⟨i, hi, hr⟩ := Option.bind_eq_some_iff.mp h
  have hinverse := hq.powInt hR hgroup (fun _ => hy) hi
  rw [zpow_neg_one] at hinverse
  rw [div_eq_mul_inv]
  exact hp.mul hR hinverse hr

theorem Represents.pow (hR : R.Exact) (hgroup : ∀ p, v (Atom.ofGroup p) = value R.toField v p)
    {p q r : Polynomial K} {x y : F} (hp : Represents R v p x) (hq : Represents R v q y)
    (hxy : BinaryOp.pow.Admits x y) (h : pow p q = some r) : Represents R v r (R.power x y) := by
  rw [Polynomial.pow] at h
  split at h
  · next b e hb he =>
      cases h
      rw [← hp.of_constant? hR hb, ← hq.of_constant? hR he, ← hR.power]
      exact represents_constant hR _
  · next e he _ =>
      obtain ⟨n, hn, hr⟩ := Option.bind_eq_some_iff.mp h
      have hy := hq.of_constant? hR he
      have hx : n < 0 → x ≠ 0 := fun hneg =>
        hxy n hneg (hy.symm.trans (hR.exponent e n hn))
      rw [← hy, hR.powerInt e n x hn hx]
      exact hp.powInt hR hgroup hx hr
  · cases h

end Polynomial

end SymbolicRegression
