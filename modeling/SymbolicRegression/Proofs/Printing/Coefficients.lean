import Mathlib.Data.List.Sort
import SymbolicRegression.Proofs.Printing.Keys

/-!
# What a layout shows of the terms

A layout shows the monomials of a built sum in full, up to the keys of their atoms, and of each
coefficient its sign and its label. There are three ways to mistake one sum for another: two
coefficients with one label, a coefficient that is written like a name, and a sum of one number that
is written like the empty one. Where none of them is met, sums with one layout are equal.
-/

namespace SymbolicRegression

/-- The factors of a monomial with their keys for the atoms. -/
def Monomial.shape (m : Monomial Float) : List (String × Int) :=
  m.map fun f => (f.1.key, f.2)

namespace Monomial

variable {m n : Monomial Float}

/-- The factors above the bar and those below it are all factors. -/
theorem perm_shape (m : Monomial Float) :
    (shape m).Perm
      (((Polynomial.powers (fun e => 0 < e) m).map fun g => (g.1, (g.2 : Int))) ++
        (Polynomial.powers (fun e => e ≤ 0) m).map fun g => (g.1, -(g.2 : Int))) := by
  have hsides : ∀ (keep : Int → Bool) (sign : Nat → Int),
      (∀ e, keep e = true → sign e.natAbs = e) →
      ((Polynomial.powers keep m).map fun g => (g.1, sign g.2)) =
        (shape m).filter fun g => keep g.2 := by
    intro keep sign hsign
    rw [Polynomial.powers, List.map_map, shape, List.filter_map]
    refine List.map_congr_left fun f hf => ?_
    simp only [Function.comp_apply, hsign f.2 (List.mem_filter.mp hf).2]
  rw [hsides _ (fun n => (n : Int)) fun e he => Int.natAbs_of_nonneg (of_decide_eq_true he).le,
    hsides _ (fun n => -(n : Int)) fun e he => by
      have hle : e ≤ 0 := of_decide_eq_true he
      omega]
  have hsplit := List.filter_append_perm (fun g : String × Int => decide (0 < g.2)) (shape m)
  refine hsplit.symm.trans (List.Perm.of_eq ?_)
  congr 1
  refine List.filter_congr fun g _ => ?_
  rw [← decide_not, decide_eq_decide]
  exact Int.not_lt

/-- Sorted monomials with the same factors above and below the bar are the same. -/
theorem Sorted.shape_eq (hm : Sorted m) (hn : Sorted n)
    (habove : Polynomial.powers (fun e => 0 < e) m = Polynomial.powers (fun e => 0 < e) n)
    (hbelow : Polynomial.powers (fun e => e ≤ 0) m = Polynomial.powers (fun e => e ≤ 0) n) :
    shape m = shape n := by
  have hperm : (shape m).Perm (shape n) := by
    refine (perm_shape m).trans ?_
    rw [habove, hbelow]
    exact (perm_shape n).symm
  have hsorted : ∀ {m : Monomial Float}, Sorted m →
      (shape m).Pairwise fun f g => Ord.compare f.1 g.1 = .lt :=
    fun h => h.map _ fun _ _ hlt => hlt
  refine hperm.eq_of_pairwise (fun f g _ _ hfg hgf => ?_) (hsorted hm) (hsorted hn)
  exact absurd hgf (Std.OrientedCmp.not_lt_of_lt hfg)

/-- Monomials with the same factors are the same if atoms with the same key are. -/
theorem eq_of_shape_eq (hatoms : ∀ f ∈ m, ∀ g ∈ n, f.1.key = g.1.key → f.1 = g.1)
    (h : shape m = shape n) : m = n := by
  have heq := map_eq_of_map_eq (g := id) (fun f hf g hg hfg => Prod.ext
    (hatoms f hf g hg (Prod.mk.inj hfg).1) (Prod.mk.inj hfg).2) h
  rwa [List.map_id, List.map_id] at heq

end Monomial

/-- No number of the set is written like a name or a zero, and no two of them are written alike. -/
structure ToldApart (S : Float → Prop) : Prop where
  name : ∀ c, S c → Lexer.isName (Coefficient.label (Scalar.abs c)) = false
  zero : ∀ c, S c → Coefficient.label (Scalar.abs c) ≠ "0"
  eq : ∀ c d, S c → S d → Scalar.lt c Scalar.zero = Scalar.lt d Scalar.zero →
    Coefficient.label (Scalar.abs c) = Coefficient.label (Scalar.abs d) → c = d

/-- All coefficients in the atom are numbers of the set, however deeply they are nested. -/
inductive Atom.Over (S : Float → Prop) : Atom Float → Prop
  | symbol {name : String} : Over S (.symbol name)
  | call {key name : String} {arguments : List Formula}
      (hcoefficients : ∀ p ∈ arguments, ∀ t ∈ p, S t.2)
      (hatoms : ∀ p ∈ arguments, ∀ t ∈ p, ∀ f ∈ t.1, Over S f.1) : Over S (.call key name arguments)
  | group {key : String} {body : Formula} (hcoefficients : ∀ t ∈ body, S t.2)
      (hatoms : ∀ t ∈ body, ∀ f ∈ t.1, Over S f.1) : Over S (.group key body)

namespace Polynomial

variable {p q : Formula} {t u : Monomial Float × Float} {S : Float → Prop}

structure Over (S : Float → Prop) (p : Formula) : Prop where
  coefficients : ∀ t ∈ p, S t.2
  atoms : ∀ t ∈ p, ∀ f ∈ t.1, f.1.Over S

/-- What is shown of a term: its factors by their keys, its sign and its label. -/
def shown (t : Monomial Float × Float) : List (String × Int) × Bool × String :=
  (Monomial.shape t.1, Scalar.lt t.2 Scalar.zero, labelOf t)

/-- The key of an atom is no word other than a name. -/
theorem isName_of_isWord_key {a : Atom Float} (ha : a.Built)
    (hword : ∀ c ∈ a.key.toList, isWordChar c = true) : Lexer.isName a.key = true := by
  cases ha with
  | symbol hname => exact hname
  | call _ _ _ =>
      rw [Atom.toList_key_ofCall] at hword
      exact absurd (hword '(' (List.mem_append_right _ List.mem_cons_self)) (by decide)
  | group _ _ _ =>
      rw [Atom.toList_key_ofGroup] at hword
      exact absurd (hword '(' List.mem_cons_self) (by decide)

/-- A label that is no name is not mistaken for a power. -/
theorem powers_ne_label (ht : Monomial.Built t.1) {label : String} {n : Nat}
    (hword : IsWord label) (hname : Lexer.isName label = false) (keep : Int → Bool)
    (fs : List (String × Nat)) : powers keep t.1 ≠ (label, n) :: fs := by
  intro h
  have hmem : (label, n) ∈ powers keep t.1 := h ▸ List.mem_cons_self
  obtain ⟨f, hf, heq⟩ := List.mem_map.mp hmem
  obtain ⟨rfl, -⟩ := Prod.mk.inj heq
  have hkey := isName_of_isWord_key (ht.atoms f (List.mem_filter.mp hf).1) hword.2
  rw [hname] at hkey
  cases hkey

theorem shown_eq_of_termLayout (ht : Monomial.Built t.1) (hu : Monomial.Built u.1)
    (htname : Lexer.isName (labelOf t) = false) (huname : Lexer.isName (labelOf u) = false)
    (h : termLayout t = termLayout u) : shown t = shown u := by
  have hnegative : Scalar.lt t.2 Scalar.zero = Scalar.lt u.2 Scalar.zero :=
    congrArg TermLayout.negative h
  have hbelow : powers (fun e => e ≤ 0) t.1 = powers (fun e => e ≤ 0) u.1 :=
    congrArg TermLayout.below h
  have habove := congrArg TermLayout.above h
  have hboth : labelOf t = labelOf u ∧
      powers (fun e => 0 < e) t.1 = powers (fun e => 0 < e) u.1 := by
    rcases above_termLayout t with ht' | ⟨htone, -, ht'⟩
    · rw [ht'] at habove
      rcases above_termLayout u with hu' | ⟨-, -, hu'⟩
      · rw [hu'] at habove
        obtain ⟨hhead, htail⟩ := List.cons.inj habove
        exact ⟨(Prod.mk.inj hhead).1, htail⟩
      · rw [hu'] at habove
        exact absurd habove.symm (powers_ne_label hu (Number.isWord_label _) htname _ _)
    · rw [ht'] at habove
      rcases above_termLayout u with hu' | ⟨huone, -, hu'⟩
      · rw [hu'] at habove
        exact absurd habove (powers_ne_label ht (Number.isWord_label _) huname _ _)
      · rw [hu'] at habove
        exact ⟨htone.trans huone.symm, habove⟩
  rw [shown, shown, hnegative, hboth.1, ht.sorted.shape_eq hu.sorted hboth.2 hbelow]

/-! ## The order of the terms -/

/-- A built sum has its constant term in front, where it has one. -/
theorem Built.filter_append (hp : p.Built) :
    (p.filter fun t => t.1.isEmpty) ++ (p.filter fun t => !t.1.isEmpty) = p := by
  cases p with
  | nil => rfl
  | cons t p =>
      obtain ⟨hfirst, -⟩ := List.pairwise_cons.mp hp.terms
      have hrest : ∀ u ∈ p, u.1.isEmpty = false := by
        intro u hu
        have hlt := hfirst u hu
        cases hmonomial : u.1 with
        | nil =>
            rw [hmonomial] at hlt
            cases ht : t.1 with
            | nil => rw [ht] at hlt; cases hlt
            | cons f m => rw [ht] at hlt; cases hlt
        | cons f m => rfl
      have hnone : (p.filter fun t => t.1.isEmpty) = [] := by
        rw [List.filter_eq_nil_iff]
        exact fun u hu => by rw [hrest u hu]; exact Bool.false_ne_true
      have hall : (p.filter fun t => !t.1.isEmpty) = p := by
        rw [List.filter_eq_self]
        exact fun u hu => by rw [hrest u hu]; rfl
      rw [List.filter_cons, List.filter_cons, hnone, hall]
      cases t.1.isEmpty with
      | true => rfl
      | false => rfl

/-- The order in which terms are printed can be undone. -/
theorem map_shown_eq (hp : p.Built) (hq : q.Built)
    (h : (printedOrder p).map shown = (printedOrder q).map shown) : p.map shown = q.map shown := by
  have hfilter : ∀ (p : Formula) (keep : Bool → Bool),
      (p.filter fun t => keep t.1.isEmpty).map shown =
        (p.map shown).filter fun s => keep s.1.isEmpty := by
    intro p keep
    rw [List.filter_map]
    refine congrArg _ (List.filter_congr fun t _ => ?_)
    rw [Function.comp_apply, shown, Monomial.shape, List.isEmpty_map]
  have hprinted : ∀ p : Formula, (printedOrder p).map shown =
      ((p.map shown).filter fun s => !s.1.isEmpty) ++ (p.map shown).filter fun s => s.1.isEmpty := by
    intro p
    rw [printedOrder, List.map_append, hfilter p fun b => !b, hfilter p fun b => b]
  have hbuilt : ∀ {p : Formula}, p.Built → p.map shown =
      ((p.map shown).filter fun s => s.1.isEmpty) ++ (p.map shown).filter fun s => !s.1.isEmpty := by
    intro p hp
    rw [← hfilter p fun b => b, ← hfilter p fun b => !b, ← List.map_append, hp.filter_append]
  rw [hprinted, hprinted] at h
  have hconstant := congrArg (List.filter fun s => s.1.isEmpty) h
  have hothers := congrArg (List.filter fun s => !s.1.isEmpty) h
  simp only [List.filter_append, List.filter_filter, Bool.and_self, Bool.and_not_self,
    Bool.not_and_self, List.filter_false, List.nil_append, List.append_nil] at hconstant hothers
  rw [hbuilt hp, hbuilt hq, hconstant, hothers]

/-- No sum with a term is laid out like the empty sum, unless it is written as a zero. -/
theorem layout_ne_layout_nil (hp : p.Built) (hne : p ≠ []) (hzero : ∀ t ∈ p, labelOf t ≠ "0") :
    layout p ≠ layout ([] : Formula) := by
  intro h
  rw [layout_eq_map hne] at h
  obtain ⟨t, ts, hts⟩ := List.exists_cons_of_ne_nil fun hnil => hne (printedOrder_eq_nil.mp hnil)
  rw [hts, List.map_cons] at h
  have ht : t ∈ p := mem_printedOrder.mp (hts ▸ List.mem_cons_self)
  have habove : (termLayout t).above = [("0", 1)] := congrArg TermLayout.above (List.cons.inj h).1
  rcases above_termLayout t with hlabel | ⟨-, -, hpowers⟩
  · rw [hlabel] at habove
    exact hzero t ht (Prod.mk.inj (List.cons.inj habove).1).1
  · rw [hpowers] at habove
    exact powers_ne_label (hp.monomials t ht) isWord_zero (by decide) _ _ habove

/-- Sums that are laid out alike show the same terms, unless a number is written like a name or a
zero. -/
theorem map_shown_of_layout_eq (hp : p.Built) (hq : q.Built) (hapart : ToldApart S)
    (hpS : p.Over S) (hqS : q.Over S) (h : layout p = layout q) : p.map shown = q.map shown := by
  by_cases hpnil : p = []
  · by_cases hqnil : q = []
    · rw [hpnil, hqnil]
    · rw [hpnil] at h
      exact absurd h.symm (layout_ne_layout_nil hq hqnil fun u hu =>
        hapart.zero _ (hqS.coefficients u hu))
  · by_cases hqnil : q = []
    · rw [hqnil] at h
      exact absurd h (layout_ne_layout_nil hp hpnil fun t ht =>
        hapart.zero _ (hpS.coefficients t ht))
    · rw [layout_eq_map hpnil, layout_eq_map hqnil] at h
      refine map_shown_eq hp hq (map_eq_of_map_eq (fun t ht u hu => ?_) h)
      have ht := mem_printedOrder.mp ht
      have hu := mem_printedOrder.mp hu
      exact shown_eq_of_termLayout (hp.monomials t ht) (hq.monomials u hu)
        (hapart.name _ (hpS.coefficients t ht)) (hapart.name _ (hqS.coefficients u hu))

/-- Sums that are printed alike are equal, if their coefficients are told apart and their atoms
are. -/
theorem eq_of_text_eq (hp : p.Built) (hq : q.Built) (hapart : ToldApart S) (hpS : p.Over S)
    (hqS : q.Over S) (hatoms : ∀ t ∈ p, ∀ f ∈ t.1, ∀ b : Atom Float, b.Built → b.Over S →
      f.1.key = b.key → f.1 = b) (htext : text p = text q) : p = q := by
  have h : layout p = layout q := (text_inj (Atom.keysAreBases_of_built hp.atoms)
    (Atom.keysAreBases_of_built hq.atoms)).mp htext
  have hshown := map_shown_of_layout_eq hp hq hapart hpS hqS h
  have heq := map_eq_of_map_eq (g := id) (fun t ht u hu htu => ?_) hshown
  · rwa [List.map_id, List.map_id] at heq
  · obtain ⟨hshape, hcoefficient⟩ := Prod.mk.inj htu
    obtain ⟨hsign, hlabel⟩ := Prod.mk.inj hcoefficient
    refine Prod.ext (Monomial.eq_of_shape_eq (fun f hf g hg hkey => ?_) hshape) ?_
    · exact hatoms t ht f hf g.1 (hq.atoms u hu g hg) (hqS.atoms u hu g hg) hkey
    · exact hapart.eq _ _ (hpS.coefficients t ht) (hqS.coefficients u hu) hsign hlabel

end Polynomial

/-! ## Atoms -/

theorem eq_of_forall₂ {α : Type} {R : α → α → Prop} {xs ys : List α} (h : List.Forall₂ R xs ys)
    (himp : ∀ x ∈ xs, ∀ y ∈ ys, R x y → x = y) : xs = ys := by
  obtain ⟨hlength, hrelated⟩ := List.forall₂_iff_zip.mp h
  rw [← List.forall₂_eq_eq_eq]
  refine List.forall₂_iff_zip.mpr ⟨hlength, fun {x y} hxy => ?_⟩
  obtain ⟨hx, hy⟩ := List.of_mem_zip hxy
  exact himp x hx y hy (hrelated hxy)

theorem Atom.Over.arguments {S : Float → Prop} {key name : String} {ps : List Formula}
    (h : (Atom.call key name ps).Over S) : ∀ p ∈ ps, p.Over S := by
  cases h with
  | call hcoefficients hatoms => exact fun p hp => ⟨hcoefficients p hp, hatoms p hp⟩

theorem Atom.Over.body {S : Float → Prop} {key : String} {p : Formula}
    (h : (Atom.group key p).Over S) : p.Over S := by
  cases h with
  | group hcoefficients hatoms => exact ⟨hcoefficients, hatoms⟩

/-- Built atoms with one key are one atom, if their coefficients are told apart at every depth. -/
theorem Atom.Built.eq_of_key_eq {S : Float → Prop} (hapart : ToldApart S) {a b : Atom Float}
    (ha : a.Built) (hb : b.Built) (haS : a.Over S) (hbS : b.Over S) (h : a.key = b.key) :
    a = b := by
  induction ha generalizing b with
  | symbol hname =>
      have hagree := ((Built.symbol hname).key_eq_iff hb).mp h
      cases hb with
      | symbol _ => exact congrArg Atom.symbol hagree
      | call _ _ _ => exact hagree.elim
      | group _ _ _ => exact hagree.elim
  | call hname hsorted hatoms ih =>
      have hagree := ((Built.call hname hsorted hatoms).key_eq_iff hb).mp h
      cases hb with
      | symbol _ => exact hagree.elim
      | call _ hsorted' hatoms' =>
          obtain ⟨rfl, htexts⟩ := hagree
          refine congrArg (Atom.ofCall _) (eq_of_forall₂ htexts fun p hp q hq htext => ?_)
          have hpS := haS.arguments p hp
          refine Polynomial.eq_of_text_eq ((hsorted p hp).built (hatoms p hp))
            ((hsorted' q hq).built (hatoms' q hq)) hapart hpS (hbS.arguments q hq) ?_ htext
          exact fun t ht f hf b hb hbS hkey => ih p hp t ht f hf hb (hpS.atoms t ht f hf) hbS hkey
      | group _ _ _ => exact hagree.elim
  | group hmany hsorted hatoms ih =>
      have hagree := ((Built.group hmany hsorted hatoms).key_eq_iff hb).mp h
      cases hb with
      | symbol _ => exact hagree.elim
      | call _ _ _ => exact hagree.elim
      | group _ hsorted' hatoms' =>
          have hpS := haS.body
          refine congrArg Atom.ofGroup (Polynomial.eq_of_text_eq (hsorted.built hatoms)
            (hsorted'.built hatoms') hapart hpS hbS.body ?_ hagree)
          exact fun t ht f hf b hb hbS hkey => ih t ht f hf hb (hpS.atoms t ht f hf) hbS hkey

/-- Built sums that are printed alike are equal, if their coefficients are told apart at every
depth. -/
theorem Polynomial.Built.eq_of_text_eq {S : Float → Prop} (hapart : ToldApart S) {p q : Formula}
    (hp : p.Built) (hq : q.Built) (hpS : p.Over S) (hqS : q.Over S)
    (h : Polynomial.text p = Polynomial.text q) : p = q :=
  Polynomial.eq_of_text_eq hp hq hapart hpS hqS
    (fun t ht f hf _ hb hbS hkey =>
      (hp.atoms t ht f hf).eq_of_key_eq hapart hb (hpS.atoms t ht f hf) hbS hkey) h

end SymbolicRegression
