import SymbolicRegression.Polynomial.Expand
import SymbolicRegression.Proofs.Results

/-!
# What expansion keeps

Expansion does few things with sums by itself. It adds, scales and multiplies them, raises a single
term to a power, makes a group of several terms, and leaves functions applied. All the rest is put
together from these: powers, quotients, calls, and what is done where an exponent does not fit. So a
property of sums is one of all expansions as soon as these few keep it. `Invariant` lists them, each
with what is known where it is done.

What stays applied is never a function of numbers alone. A function of numbers is computed; and an
operation on two numbers is always carried out, since an exponent that does not fit is one of an atom.
-/

namespace SymbolicRegression

variable {K : Type} [Coefficient K]

namespace Polynomial

variable {p q r : Polynomial K}

/-! ## Rows of steps -/

theorem exists_eq_none_of_mapM {α β : Type} {f : α → Option β} :
    ∀ {xs : List α}, xs.mapM f = none → ∃ x ∈ xs, f x = none
  | [], h => by
      rw [List.mapM_nil] at h
      cases h
  | x :: xs, h => by
      rw [List.mapM_cons] at h
      cases hx : f x with
      | none => exact ⟨x, List.mem_cons_self, hx⟩
      | some y =>
          cases hxs : xs.mapM f with
          | none =>
              obtain ⟨x', hx', hnone⟩ := exists_eq_none_of_mapM hxs
              exact ⟨x', List.mem_cons_of_mem x hx', hnone⟩
          | some ys =>
              rw [hx, hxs] at h
              cases h

/-- Every result of a row of steps comes from one of them. -/
theorem exists_of_mem_mapM {α β : Type} {f : α → Option β} {y : β} :
    ∀ {xs : List α} {ys : List β}, xs.mapM f = some ys → y ∈ ys → ∃ x ∈ xs, f x = some y
  | [], ys, h, hy => by
      rw [List.mapM_nil] at h
      cases h
      cases hy
  | x :: xs, ys, h, hy => by
      rw [List.mapM_cons] at h
      obtain ⟨z, hz, h⟩ := Option.bind_eq_some_iff.mp h
      obtain ⟨zs, hzs, h⟩ := Option.bind_eq_some_iff.mp h
      cases h
      rcases List.mem_cons.mp hy with rfl | hy
      · exact ⟨x, List.mem_cons_self, hz⟩
      · obtain ⟨x', hx', hy⟩ := exists_of_mem_mapM hzs hy
        exact ⟨x', List.mem_cons_of_mem x hx', hy⟩

/-- The monomial of a product is the product of two monomials. -/
theorem exists_of_mem_products {terms : List (Monomial K × K)} {u : Monomial K × K}
    (h : products p q = some terms) (hu : u ∈ terms) :
    ∃ s ∈ p, ∃ t ∈ q, Monomial.mul s.1 t.1 = some u.1 := by
  obtain ⟨rows, hrows, rfl⟩ := Option.map_eq_some_iff.mp h
  obtain ⟨row, hrow, hu⟩ := List.mem_flatten.mp hu
  obtain ⟨s, hs, hrow⟩ := exists_of_mem_mapM hrows hrow
  obtain ⟨t, ht, hu⟩ := exists_of_mem_mapM hrow hu
  obtain ⟨m, hm, rfl⟩ := Option.map_eq_some_iff.mp hu
  exact ⟨s, hs, t, ht, hm⟩

/-! ## Operations that are not carried out -/

theorem constant?_eq_none_of_mem {t : Monomial K × K} (ht : t ∈ p) (hne : t.1 ≠ []) :
    constant? p = none := by
  rw [constant?.eq_def]
  split
  · cases ht
  · rw [List.mem_singleton] at ht
    rw [ht] at hne
    exact absurd rfl hne
  · rfl

theorem one_lt_length (hconstant : constant? p = none) (hsingle : single? p = none) :
    1 < p.length := by
  match p with
  | [] => cases hconstant
  | [t] => cases hsingle
  | s :: t :: p => exact Nat.lt_add_of_pos_left (Nat.succ_pos _)

/-- A product with a number is always carried out. -/
theorem exists_of_mul_eq_none (h : mul p q = none) : ∃ t ∈ q, t.1 ≠ [] := by
  obtain ⟨s, -, hs⟩ := exists_eq_none_of_mapM
    (Option.map_eq_none_iff.mp (Option.map_eq_none_iff.mp h))
  obtain ⟨t, ht, hnone⟩ := exists_eq_none_of_mapM hs
  refine ⟨t, ht, fun heq => ?_⟩
  rw [mulTerms, heq] at hnone
  cases hnone

theorem constant?_eq_none_of_div (h : div p q = none) : constant? q = none := by
  cases hq : constant? q with
  | none => rfl
  | some c =>
      have hpow : powInt q (-1) = some (constant (Scalar.powInt c (-1))) := by
        rw [powInt, if_neg (by decide), hq]
      rw [div, hpow, Option.bind_some] at h
      obtain ⟨t, ht, hne⟩ := exists_of_mul_eq_none h
      have heq : t = ([], Scalar.powInt c (-1)) := List.mem_singleton.mp (List.mem_filter.mp ht).1
      rw [heq] at hne
      exact absurd rfl hne

/-- What is not carried out has an operand that is no number. -/
theorem exists_of_binary?_eq_none {op : BinaryOp} (h : binary? op p q = none) :
    ∃ s ∈ [p, q], constant? s = none := by
  cases op with
  | add => cases h
  | sub => cases h
  | mul =>
      obtain ⟨t, ht, hne⟩ := exists_of_mul_eq_none h
      exact ⟨q, by simp, constant?_eq_none_of_mem ht hne⟩
  | div => exact ⟨q, by simp, constant?_eq_none_of_div h⟩
  | pow =>
      change pow p q = none at h
      cases hp : constant? p with
      | none => exact ⟨p, by simp, hp⟩
      | some b =>
          cases hq : constant? q with
          | none => exact ⟨q, by simp, hq⟩
          | some e =>
              rw [pow, hp, hq] at h
              cases h

/-! ## Invariants -/

/-- A property of sums that expansion keeps, if the names of functions that stay applied satisfy
`F`. -/
structure Invariant (P : Polynomial K → Prop) (F : String → Prop) : Prop where
  constant : ∀ c, P (constant c)
  add : ∀ {p q}, P p → P q → P (add p q)
  scale : ∀ {p}, P p → ∀ c, P (scale p c)
  mul : ∀ {p q r}, P p → P q → mul p q = some r → P r
  power : ∀ {m mn c n}, P [(m, c)] → n ≠ 0 → Monomial.pow m n = some mn →
    P (term (Scalar.powInt c n) mn)
  group : ∀ {p n}, P p → 1 < p.length → n ≠ 0 → P (term Scalar.one [(Atom.ofGroup p, n)])
  applied : ∀ {f ps}, F f → (∀ p ∈ ps, P p) → (∃ p ∈ ps, constant? p = none) →
    P (ofAtom (Atom.ofCall f ps))
  keptName : ∀ op, F (keptName op)

namespace Invariant

variable {P : Polynomial K → Prop} {F : String → Prop}

theorem powSucc (hP : Invariant P F) (hp : P p) :
    ∀ {n : Nat} {r : Polynomial K}, powSucc p n = some r → P r
  | 0, r, h => by
      cases h
      exact hp
  | n + 1, r, h => by
      rw [Polynomial.powSucc] at h
      obtain ⟨q, hq, hr⟩ := Option.bind_eq_some_iff.mp h
      exact hP.mul (hP.powSucc hp hq) hp hr

theorem powInt (hP : Invariant P F) {n : Int} (hp : P p) (h : powInt p n = some r) : P r := by
  rw [Polynomial.powInt] at h
  split at h
  · cases h
    exact hP.constant _
  · next hn =>
      split at h
      · cases h
        exact hP.constant _
      · next hconstant =>
          split at h
          · next m c hsingle =>
              obtain ⟨mn, hmn, rfl⟩ := Option.map_eq_some_iff.mp h
              obtain rfl : p = [(m, c)] := by
                rw [single?.eq_def] at hsingle
                split at hsingle
                · cases hsingle
                  rfl
                · cases hsingle
              exact hP.power hp hn hmn
          · next hsingle =>
              split at h
              · exact hP.powSucc hp h
              · cases h
                exact hP.group hp (one_lt_length hconstant hsingle) hn

theorem div (hP : Invariant P F) (hp : P p) (hq : P q) (h : div p q = some r) : P r := by
  obtain ⟨s, hs, hr⟩ := Option.bind_eq_some_iff.mp h
  exact hP.mul hp (hP.powInt hq hs) hr

theorem pow (hP : Invariant P F) (hp : P p) (h : pow p q = some r) : P r := by
  rw [Polynomial.pow] at h
  split at h
  · cases h
    exact hP.constant _
  · obtain ⟨n, -, hr⟩ := Option.bind_eq_some_iff.mp h
    exact hP.powInt hp hr
  · cases h

theorem binary? (hP : Invariant P F) {op : BinaryOp} (hp : P p) (hq : P q)
    (h : binary? op p q = some r) : P r := by
  cases op with
  | add =>
      cases h
      exact hP.add hp hq
  | sub =>
      cases h
      exact hP.add hp (hP.scale hq _)
  | mul => exact hP.mul hp hq h
  | div => exact hP.div hp hq h
  | pow => exact hP.pow hp h

theorem binary (hP : Invariant P F) (op : BinaryOp) (hp : P p) (hq : P q) :
    P (binary op p q) := by
  rw [Polynomial.binary]
  cases h : Polynomial.binary? op p q with
  | some r => exact hP.binary? hp hq h
  | none =>
      refine hP.applied (hP.keptName op) ?_ (exists_of_binary?_eq_none h)
      exact List.forall_mem_cons.mpr ⟨hp, List.forall_mem_singleton.mpr hq⟩

theorem call (hP : Invariant P F) {name : String} (hname : F name) {meaning : Meaning K}
    {ps : List (Polynomial K)} (h : ∀ p ∈ ps, P p) : P (call name meaning ps) := by
  have happlied : P (Polynomial.applied name meaning.apply ps) := by
    rw [Polynomial.applied]
    split
    · exact hP.constant _
    · next hnone => exact hP.applied hname h (exists_eq_none_of_mapM hnone)
  rw [call.eq_def]
  split
  case h_6 => exact hP.scale (List.forall_mem_singleton.mp h) _
  case h_7 => exact happlied
  all_goals
    obtain ⟨hp, hq⟩ := List.forall_mem_cons.mp h
    exact hP.binary _ hp (List.forall_mem_singleton.mp hq)

end Invariant

end Polynomial

/-! ## Expressions -/

namespace Expr

open SymbolicRegression.Polynomial

variable {P : Polynomial K → Prop} {F : String → Prop} {Q : Expr K → Prop}
  {meaning? : String → Option (Meaning K)} {value? : Option (String → K)}

/-- A condition on expressions that passes to their parts and makes the property hold of the names
that stay symbols. -/
structure Admits (P : Polynomial K → Prop) (F : String → Prop) (value? : Option (String → K))
    (Q : Expr K → Prop) : Prop where
  name : ∀ {n}, Q (.name n) → (value?.isSome → Name.isConstant n = false) → P (ofAtom (.symbol n))
  neg : ∀ {e}, Q (.neg e) → Q e
  binary : ∀ {op l r}, Q (.binary op l r) → Q l ∧ Q r
  call : ∀ {f es}, Q (.call f es) → F f ∧ ∀ e ∈ es, Q e

mutual

theorem Admits.expand (hQ : Admits P F value? Q) (hP : Invariant P F) :
    ∀ {e : Expr K} {p : Polynomial K}, Q e → e.expand meaning? value? = .ok p → P p
  | .number v, p, _, h => by
      rw [Expr.expand] at h
      cases h
      exact hP.constant v
  | .name n, p, he, h => by
      cases value? with
      | none =>
          rw [Expr.expand] at h
          cases h
          exact hQ.name he fun hsome => by cases hsome
      | some value =>
          rw [Expr.expand] at h
          cases h
          split
          · exact hP.constant _
          · next hname => exact hQ.name he fun _ => Bool.eq_false_iff.mpr hname
  | .neg e, p, he, h => by
      rw [Expr.expand] at h
      obtain ⟨q, hq, h⟩ := bind_eq_ok h
      cases h
      exact hP.scale (hQ.expand hP (hQ.neg he) hq) _
  | .binary op l r, p, he, h => by
      obtain ⟨hl, hr⟩ := hQ.binary he
      rw [Expr.expand] at h
      obtain ⟨q, hq, h⟩ := bind_eq_ok h
      obtain ⟨s, hs, h⟩ := bind_eq_ok h
      cases h
      exact hP.binary op (hQ.expand hP hl hq) (hQ.expand hP hr hs)
  | .call f arguments, p, he, h => by
      obtain ⟨hf, harguments⟩ := hQ.call he
      rw [Expr.expand] at h
      split at h
      · cases h
      · split at h
        · cases h
        · obtain ⟨ps, hps, h⟩ := bind_eq_ok h
          cases h
          exact hP.call hf (hQ.expandAll hP harguments hps)

theorem Admits.expandAll (hQ : Admits P F value? Q) (hP : Invariant P F) :
    ∀ {es : List (Expr K)} {ps : List (Polynomial K)}, (∀ e ∈ es, Q e) →
      expandAll meaning? value? es = .ok ps → ∀ p ∈ ps, P p
  | [], ps, _, h => by
      rw [Expr.expandAll] at h
      cases h
      exact List.forall_mem_nil _
  | e :: es, ps, hes, h => by
      obtain ⟨he, hes⟩ := List.forall_mem_cons.mp hes
      rw [Expr.expandAll] at h
      obtain ⟨p, hp, h⟩ := bind_eq_ok h
      obtain ⟨qs, hqs, h⟩ := bind_eq_ok h
      cases h
      exact List.forall_mem_cons.mpr ⟨hQ.expand hP he hp, hQ.expandAll hP hes hqs⟩

end

end Expr

end SymbolicRegression
