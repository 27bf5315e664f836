import SymbolicRegression.Proofs.Expansion.Calls
import SymbolicRegression.Proofs.Expansion.Operations
import SymbolicRegression.Proofs.Lexing
import SymbolicRegression.Polynomial.Formula

/-!
# What expansion builds

Over doubles, atoms are ordered by their keys. Expansion keeps monomials and sums sorted in that
order, each atom and each monomial once. The atoms that it builds are symbols and functions with
names as the notation has them, and groups of at least two terms; a key is always that of what the
atom holds. These are invariants of every single operation, so they hold of every expansion and of
all that is compared and merged on the way.
-/

namespace SymbolicRegression

/-! ## The order of monomials -/

/-- The order of factors: by the key of the atom, then by the exponent. -/
def compareFactors (f g : Atom Float × Int) : Ordering :=
  (compare f.1.key g.1.key).then (compare f.2 g.2)

instance : Std.TransCmp compareFactors :=
  inferInstanceAs (Std.TransCmp (compareLex
    (compareOn fun f : Atom Float × Int => f.1.key) (compareOn fun f => f.2)))

namespace Monomial

theorem compare_eq_compareLex (m n : Monomial Float) :
    compare m n = List.compareLex compareFactors m n := by
  induction m generalizing n with
  | nil =>
      cases n with
      | nil => rw [compare, List.compareLex_nil_nil]
      | cons g n => rw [compare, List.compareLex_nil_cons]
  | cons f m ih =>
      cases n with
      | nil => rw [compare, List.compareLex_cons_nil]
      | cons g n =>
          rw [compare, List.compareLex_cons_cons, ih]
          rfl

instance : Std.TransCmp (compare (K := Float)) := by
  have h : compare (K := Float) = List.compareLex compareFactors :=
    funext fun m => funext fun n => compare_eq_compareLex m n
  rw [h]
  infer_instance

/-- The atoms come in increasing order of their keys, so each of them once. -/
def Sorted (m : Monomial Float) : Prop :=
  m.Pairwise fun f g => Ord.compare f.1.key g.1.key = .lt

end Monomial

/-- The monomials come in increasing order, so each of them once, and are sorted themselves. -/
structure Polynomial.Sorted (p : Formula) : Prop where
  terms : p.Pairwise fun s t => Monomial.compare s.1 t.1 = .lt
  monomials : ∀ t ∈ p, Monomial.Sorted t.1

/-- The atoms that expansion builds. -/
inductive Atom.Built : Atom Float → Prop
  | symbol {name : String} (hname : Lexer.isName name = true) : Built (.symbol name)
  | call {name : String} {arguments : List Formula} (hname : Lexer.isName name = true)
      (hsorted : ∀ p ∈ arguments, Polynomial.Sorted p)
      (hatoms : ∀ p ∈ arguments, ∀ t ∈ p, ∀ f ∈ t.1, Built f.1) :
      Built (Atom.ofCall name arguments)
  | group {body : Formula} (hmany : 1 < body.length) (hsorted : Polynomial.Sorted body)
      (hatoms : ∀ t ∈ body, ∀ f ∈ t.1, Built f.1) : Built (Atom.ofGroup body)

namespace Monomial

structure Built (m : Monomial Float) : Prop where
  sorted : Sorted m
  atoms : ∀ f ∈ m, f.1.Built

variable {a : Atom Float} {m n p : Monomial Float}

theorem built_nil : Built [] :=
  ⟨List.Pairwise.nil, List.forall_mem_nil _⟩

theorem built_single (ha : a.Built) (e : Int) : Built [(a, e)] :=
  ⟨List.pairwise_singleton _ _, List.forall_mem_singleton.mpr ha⟩

theorem Built.tail {f : Atom Float × Int} (h : Built (f :: m)) : Built m :=
  ⟨(List.pairwise_cons.mp h.sorted).2, (List.forall_mem_cons.mp h.atoms).2⟩

/-- A factor can be put in front if its atom comes before all others. -/
theorem Built.cons {f : Atom Float × Int} (hf : f.1.Built) (h : Built m)
    (hfirst : ∀ g ∈ m, Ord.compare f.1.key g.1.key = .lt) : Built (f :: m) :=
  ⟨List.pairwise_cons.mpr ⟨hfirst, h.sorted⟩, List.forall_mem_cons.mpr ⟨hf, h.atoms⟩⟩

/-- A factor that was not there before has an exponent that is not zero, and its atom is the new one
or was there. -/
theorem changed_of_mulAtom {e : Int} (h : mulAtom a e m = some n) :
    ∀ f ∈ n, f ∈ m ∨ f.2 ≠ 0 ∧ (f.1 = a ∨ ∃ g ∈ m, f.1 = g.1) := by
  induction m generalizing n with
  | nil =>
      rw [mulAtom] at h
      split at h
      · cases h
        split
        · exact List.forall_mem_nil _
        · next hne => exact List.forall_mem_singleton.mpr (.inr ⟨hne, .inl rfl⟩)
      · cases h
  | cons g m ih =>
      rw [mulAtom] at h
      split at h
      · split at h
        · cases h
          split
          · exact fun f hf => .inl hf
          · next hne => exact List.forall_mem_cons.mpr ⟨.inr ⟨hne, .inl rfl⟩, fun f hf => .inl hf⟩
        · cases h
      · split at h
        · cases h
          have hold : ∀ f ∈ m, f ∈ g :: m ∨ f.2 ≠ 0 ∧ (f.1 = a ∨ ∃ g' ∈ g :: m, f.1 = g'.1) :=
            fun f hf => .inl (List.mem_cons_of_mem g hf)
          split
          · exact hold
          · next hne =>
              exact List.forall_mem_cons.mpr ⟨.inr ⟨hne, .inr ⟨g, List.mem_cons_self, rfl⟩⟩, hold⟩
        · cases h
      · obtain ⟨n', hn', rfl⟩ := Option.map_eq_some_iff.mp h
        refine List.forall_mem_cons.mpr ⟨.inl List.mem_cons_self, fun f hf => ?_⟩
        rcases ih hn' f hf with hmem | ⟨hne, hfa | ⟨g', hg', heq⟩⟩
        · exact .inl (List.mem_cons_of_mem g hmem)
        · exact .inr ⟨hne, .inl hfa⟩
        · exact .inr ⟨hne, .inr ⟨g', List.mem_cons_of_mem g hg', heq⟩⟩

/-- Multiplying brings in no atom but the new one. -/
theorem mem_of_mulAtom {e : Int} (h : mulAtom a e m = some n) :
    ∀ f ∈ n, f.1 = a ∨ ∃ g ∈ m, f.1 = g.1 := by
  intro f hf
  rcases changed_of_mulAtom h f hf with hmem | ⟨-, hatom⟩
  · exact .inr ⟨f, hmem, rfl⟩
  · exact hatom

theorem Built.mulAtom {e : Int} (hm : Built m) (ha : a.Built)
    (h : Monomial.mulAtom a e m = some n) : Built n := by
  induction m generalizing n with
  | nil =>
      rw [Monomial.mulAtom] at h
      split at h
      · cases h
        split
        · exact built_nil
        · exact built_single ha e
      · cases h
  | cons g m ih =>
      obtain ⟨hfirst, -⟩ := List.pairwise_cons.mp hm.sorted
      have hg := hm.atoms g List.mem_cons_self
      rw [Monomial.mulAtom] at h
      split at h
      · next hlt =>
          split at h
          · cases h
            split
            · exact hm
            · refine hm.cons ha (List.forall_mem_cons.mpr ⟨hlt, fun f hf => ?_⟩)
              exact Std.TransCmp.lt_trans hlt (hfirst f hf)
          · cases h
      · split at h
        · cases h
          split
          · exact hm.tail
          · exact hm.tail.cons hg hfirst
        · cases h
      · next hgt =>
          obtain ⟨n', hn', rfl⟩ := Option.map_eq_some_iff.mp h
          refine (ih hm.tail hn').cons hg fun f hf => ?_
          rcases mem_of_mulAtom hn' f hf with hfa | ⟨g', hg', heq⟩
          · rw [hfa]
            exact Std.OrientedCmp.lt_of_gt hgt
          · rw [heq]
            exact hfirst g' hg'

theorem Built.mul (hm : Built m) (hn : Built n) (h : mul m n = some p) : Built p := by
  induction n generalizing m with
  | nil =>
      cases h
      exact hm
  | cons f n ih =>
      rw [Monomial.mul, List.foldlM_cons] at h
      obtain ⟨m', hm', hp⟩ := Option.bind_eq_some_iff.mp h
      exact ih (hm.mulAtom (hn.atoms f List.mem_cons_self) hm') hn.tail hp

theorem eq_map_of_pow {k : Int} :
    ∀ {m p : Monomial Float}, pow m k = some p → p = m.map fun f => (f.1, f.2 * k)
  | [], p, h => by
      rw [pow, List.mapM_nil] at h
      cases h
      rfl
  | (a, e) :: m, p, h => by
      rw [pow, List.mapM_cons] at h
      obtain ⟨g, hg, h⟩ := Option.bind_eq_some_iff.mp h
      obtain ⟨q, hq, h⟩ := Option.bind_eq_some_iff.mp h
      cases h
      change (if isExponent (e * k) then some (a, e * k) else none) = some g at hg
      rw [List.map_cons, eq_map_of_pow hq]
      split at hg
      · cases hg
        rfl
      · cases hg

theorem Built.pow {k : Int} (hm : Built m) (h : pow m k = some p) : Built p := by
  rw [eq_map_of_pow h]
  refine ⟨hm.sorted.map _ fun f g hfg => hfg, fun f hf => ?_⟩
  obtain ⟨g, hg, rfl⟩ := List.mem_map.mp hf
  exact hm.atoms g hg

end Monomial

namespace Polynomial

structure Built (p : Formula) : Prop where
  terms : p.Pairwise fun s t => Monomial.compare s.1 t.1 = .lt
  monomials : ∀ t ∈ p, Monomial.Built t.1

theorem Built.sorted {p : Formula} (h : Built p) : Sorted p :=
  ⟨h.terms, fun t ht => (h.monomials t ht).sorted⟩

theorem Sorted.built {p : Formula} (h : Sorted p) (hatoms : ∀ t ∈ p, ∀ f ∈ t.1, f.1.Built) :
    Built p :=
  ⟨h.terms, fun t ht => ⟨h.monomials t ht, hatoms t ht⟩⟩

theorem Built.atoms {p : Formula} (h : Built p) : ∀ t ∈ p, ∀ f ∈ t.1, f.1.Built :=
  fun t ht => (h.monomials t ht).atoms

theorem built_nil : Built [] :=
  ⟨List.Pairwise.nil, List.forall_mem_nil _⟩

/-! ## Gathering like terms -/

/-- What has been gathered so far, the last term first: the terms decrease, and the ones that follow
do not come before the last of them. -/
structure Gathered (terms rest : List (Monomial Float × Float)) : Prop where
  decreasing : terms.Pairwise fun s t => Monomial.compare t.1 s.1 = .lt
  monomials : ∀ t ∈ terms, Monomial.Built t.1
  below : ∀ s ∈ terms.head?, ∀ t ∈ rest, (Monomial.compare s.1 t.1).isLE

theorem Gathered.absorb {terms rest : List (Monomial Float × Float)} {t : Monomial Float × Float}
    (h : Gathered terms (t :: rest)) (ht : Monomial.Built t.1)
    (hrest : ∀ u ∈ rest, (Monomial.compare t.1 u.1).isLE) : Gathered (absorb terms t) rest := by
  cases terms with
  | nil =>
      refine ⟨List.pairwise_singleton _ _, List.forall_mem_singleton.mpr ht, fun s hs => ?_⟩
      cases hs
      exact hrest
  | cons s terms =>
      obtain ⟨hdecreasing, hterms⟩ := List.pairwise_cons.mp h.decreasing
      obtain ⟨hs, hmonomials⟩ := List.forall_mem_cons.mp h.monomials
      have hle := h.below s rfl t List.mem_cons_self
      rw [Polynomial.absorb.eq_def]
      dsimp only
      split
      · -- the monomial is that of the last term, so it keeps its place
        refine ⟨List.pairwise_cons.mpr ⟨hdecreasing, hterms⟩,
          List.forall_mem_cons.mpr ⟨hs, hmonomials⟩, fun s' hs' => ?_⟩
        cases hs'
        exact fun u hu => h.below s rfl u (List.mem_cons_of_mem t hu)
      · next hne =>
          have hlt : Monomial.compare s.1 t.1 = .lt := by
            cases hcompare : Monomial.compare s.1 t.1 with
            | lt => rfl
            | eq => exact absurd hcompare hne
            | gt => rw [hcompare] at hle; cases hle
          refine ⟨List.pairwise_cons.mpr ⟨fun u hu => ?_, h.decreasing⟩,
            List.forall_mem_cons.mpr ⟨ht, h.monomials⟩, fun s' hs' => ?_⟩
          · rcases List.mem_cons.mp hu with rfl | hu
            · exact hlt
            · exact Std.TransCmp.lt_trans (hdecreasing u hu) hlt
          · cases hs'
            exact hrest

theorem Gathered.foldl {rest : List (Monomial Float × Float)} :
    ∀ {terms : List (Monomial Float × Float)}, Gathered terms rest →
      rest.Pairwise (fun s t => (Monomial.compare s.1 t.1).isLE) →
      (∀ t ∈ rest, Monomial.Built t.1) → Gathered (rest.foldl Polynomial.absorb terms) [] := by
  induction rest with
  | nil => exact fun h _ _ => h
  | cons t rest ih =>
      intro terms h hsorted hrest
      obtain ⟨hle, hsorted⟩ := List.pairwise_cons.mp hsorted
      obtain ⟨ht, hrest⟩ := List.forall_mem_cons.mp hrest
      exact ih (h.absorb ht hle) hsorted hrest

theorem built_gather {terms : List (Monomial Float × Float)}
    (hsorted : terms.Pairwise fun s t => precedes s t = true)
    (hterms : ∀ t ∈ terms, Monomial.Built t.1) : Built (gather terms) := by
  have hempty : Gathered [] terms :=
    ⟨List.Pairwise.nil, List.forall_mem_nil _, fun s hs => by cases hs⟩
  have hall := hempty.foldl hsorted hterms
  refine ⟨(List.pairwise_reverse.mpr hall.decreasing).filter _, fun t ht => ?_⟩
  exact hall.monomials t (List.mem_reverse.mp (List.mem_filter.mp ht).1)

theorem precedes_trans (s t u : Monomial Float × Float) (hst : precedes s t = true)
    (htu : precedes t u = true) : precedes s u = true :=
  Std.TransCmp.isLE_trans hst htu

theorem precedes_total (s t : Monomial Float × Float) :
    (precedes s t || precedes t s) = true := by
  have hswap : Monomial.compare t.1 s.1 = (Monomial.compare s.1 t.1).swap :=
    Std.OrientedCmp.eq_swap
  rw [precedes, precedes, hswap]
  cases Monomial.compare s.1 t.1 with
  | lt => rfl
  | eq => rfl
  | gt => rfl

theorem Built.precedes {p : Formula} (h : Built p) :
    p.Pairwise fun s t => precedes s t = true :=
  h.terms.imp fun hlt => by rw [Polynomial.precedes, hlt]; rfl

/-! ## Operations -/

variable {p q r : Formula} {a : Atom Float} {m : Monomial Float}

theorem built_term (c : Float) (hm : Monomial.Built m) : Built (term c m) :=
  built_gather (List.pairwise_singleton _ _) (List.forall_mem_singleton.mpr hm)

theorem built_constant (c : Float) : Built (constant c) :=
  built_term c Monomial.built_nil

theorem built_ofAtom (ha : a.Built) : Built (ofAtom a) :=
  built_term Scalar.one (Monomial.built_single ha 1)

theorem Built.add (hp : Built p) (hq : Built q) : Built (add p q) := by
  refine built_gather ?_ fun t ht => ?_
  · exact List.pairwise_merge precedes_trans precedes_total p q hp.precedes hq.precedes
  · rcases List.mem_merge.mp ht with hmem | hmem
    · exact hp.monomials t hmem
    · exact hq.monomials t hmem

theorem Built.scale (hp : Built p) (c : Float) : Built (scale p c) := by
  refine built_gather ?_ fun t ht => ?_
  · exact hp.precedes.map _ fun _ _ h => h
  · obtain ⟨s, hs, rfl⟩ := List.mem_map.mp ht
    exact hp.monomials s hs

theorem Built.mul (hp : Built p) (hq : Built q) (h : mul p q = some r) : Built r := by
  obtain ⟨terms, hterms, rfl⟩ := Option.map_eq_some_iff.mp h
  refine built_gather (List.pairwise_mergeSort precedes_trans precedes_total _) fun u hu => ?_
  obtain ⟨s, hs, t, ht, hu⟩ := exists_of_mem_products hterms (List.mem_mergeSort.mp hu)
  exact (hp.monomials s hs).mul (hq.monomials t ht) hu

/-- A function stays applied to what has been built. -/
theorem built_ofCall {name : String} {ps : List Formula} (hname : Lexer.isName name = true)
    (hps : ∀ p ∈ ps, Built p) : Built (ofAtom (Atom.ofCall name ps)) :=
  built_ofAtom (.call hname (fun p hp => (hps p hp).sorted) fun p hp => (hps p hp).atoms)

theorem isName_keptName (op : BinaryOp) : Lexer.isName (keptName op) = true := by
  cases op <;> decide

theorem built_invariant : Invariant Built fun name => Lexer.isName name = true where
  constant := built_constant
  add := Built.add
  scale := Built.scale
  mul := Built.mul
  power hp _ h := built_term _ ((hp.monomials _ List.mem_cons_self).pow h)
  group hp hmany _ := built_term _ (Monomial.built_single (.group hmany hp.sorted hp.atoms) _)
  applied hname hps _ := built_ofCall hname hps
  keptName := isName_keptName

end Polynomial

/-! ## Expressions -/

namespace Expr

mutual

/-- Whatever is named or called in the expression has a name as the notation has them. -/
def Named {K : Type} : Expr K → Prop
  | number _ => True
  | name n => Lexer.isName n = true
  | neg e => Named e
  | binary _ l r => Named l ∧ Named r
  | call f arguments => Lexer.isName f = true ∧ NamedAll arguments

def NamedAll {K : Type} : List (Expr K) → Prop
  | [] => True
  | e :: es => Named e ∧ NamedAll es

end

open SymbolicRegression.Polynomial

variable {meaning? : String → Option (Meaning Float)} {value? : Option (String → Float)}

theorem NamedAll.named {es : List (Expr Float)} (h : NamedAll es) : ∀ e ∈ es, e.Named := by
  induction es with
  | nil => exact List.forall_mem_nil _
  | cons e es ih => exact List.forall_mem_cons.mpr ⟨h.1, ih h.2⟩

theorem admits_named :
    Admits Polynomial.Built (fun name => Lexer.isName name = true) value? Named where
  name hname _ := built_ofAtom (.symbol hname)
  neg h := h
  binary h := h
  call h := ⟨h.1, h.2.named⟩

theorem Named.built_expand {e : Expr Float} {p : Formula} (he : e.Named)
    (h : e.expand meaning? value? = .ok p) : Polynomial.Built p :=
  admits_named.expand built_invariant he h

end Expr

end SymbolicRegression
