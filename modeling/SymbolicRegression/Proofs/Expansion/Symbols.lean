import SymbolicRegression.Proofs.CompiledProgram
import SymbolicRegression.Proofs.Expansion.BuiltAtoms
import SymbolicRegression.Proofs.Expansion.Formulas
import SymbolicRegression.Proofs.Resolution

/-!
# What compiles can be expanded

Compiling and expanding resolve names by rules of their own. A program knows the operators and the
helpers of the registry, and every other name has to be one of its parameters. Expansion also knows
the stock operators, and takes any name that is left for a symbol. So what compiles expands, and the
question is which symbols are left in the result.

No operation on sums brings in a symbol. What it cannot carry out it keeps, as an application or as a
group, and the symbols inside are those of the operands. So the symbols of an expansion are names of
the expression, at whatever depth they stand. Where constants are replaced by numbers, a name of
constant form never becomes a symbol in the first place.
-/

namespace SymbolicRegression

/-- The name stands in the atom as a symbol: it is the atom, or it stands in an argument or in the
body of a group. -/
inductive Atom.Mentions {K : Type} (name : String) : Atom K → Prop
  | symbol : Mentions name (.symbol name)
  | call {key f : String} {arguments : List (Polynomial K)} {p : Polynomial K}
      {t : Monomial K × K} {g : Atom K × Int} (hp : p ∈ arguments) (ht : t ∈ p) (hg : g ∈ t.1)
      (h : Mentions name g.1) : Mentions name (.call key f arguments)
  | group {key : String} {body : Polynomial K} {t : Monomial K × K} {g : Atom K × Int}
      (ht : t ∈ body) (hg : g ∈ t.1) (h : Mentions name g.1) : Mentions name (.group key body)

/-- The name stands in the sum as a symbol, at whatever depth. -/
def Polynomial.Mentions {K : Type} (name : String) (p : Polynomial K) : Prop :=
  ∃ t ∈ p, ∃ f ∈ t.1, f.1.Mentions name

/-! ## The list of symbols -/

namespace Atom

variable {K : Type} {name : String}

mutual

theorem mem_symbols : ∀ {a : Atom K}, name ∈ a.symbols ↔ a.Mentions name
  | .symbol n => by
      rw [symbols, List.mem_singleton]
      constructor
      · rintro rfl
        exact .symbol
      · intro h
        cases h
        rfl
  | .call key f arguments => by
      rw [symbols, mem_symbolsOfAll]
      constructor
      · rintro ⟨p, hp, t, ht, g, hg, h⟩
        exact .call hp ht hg h
      · intro h
        cases h with
        | call hp ht hg h => exact ⟨_, hp, _, ht, _, hg, h⟩
  | .group key body => by
      rw [symbols, mem_symbolsOfTerms]
      constructor
      · rintro ⟨t, ht, g, hg, h⟩
        exact .group ht hg h
      · intro h
        cases h with
        | group ht hg h => exact ⟨_, ht, _, hg, h⟩

theorem mem_symbolsOfAll :
    ∀ {ps : List (List (List (Atom K × Int) × K))},
      name ∈ symbolsOfAll ps ↔ ∃ p ∈ ps, Polynomial.Mentions name p
  | [] => by simp [symbolsOfAll]
  | p :: ps => by
      rw [symbolsOfAll, List.mem_append, mem_symbolsOfTerms, mem_symbolsOfAll,
        List.exists_mem_cons_iff]

theorem mem_symbolsOfTerms :
    ∀ {p : List (List (Atom K × Int) × K)}, name ∈ symbolsOfTerms p ↔ Polynomial.Mentions name p
  | [] => by simp [symbolsOfTerms, Polynomial.Mentions]
  | (m, c) :: p => by
      rw [symbolsOfTerms, List.mem_append, mem_symbolsOfFactors, mem_symbolsOfTerms,
        Polynomial.Mentions, Polynomial.Mentions, List.exists_mem_cons_iff]

theorem mem_symbolsOfFactors :
    ∀ {m : List (Atom K × Int)}, name ∈ symbolsOfFactors m ↔ ∃ f ∈ m, f.1.Mentions name
  | [] => by simp [symbolsOfFactors]
  | (a, e) :: m => by
      rw [symbolsOfFactors, List.mem_append, mem_symbols, mem_symbolsOfFactors,
        List.exists_mem_cons_iff]

end

end Atom

namespace Polynomial

theorem mem_insertName {n name : String} {ns : List String} :
    n ∈ insertName name ns ↔ n = name ∨ n ∈ ns := by
  induction ns with
  | nil => rw [insertName, List.mem_singleton, or_iff_left List.not_mem_nil]
  | cons m ns ih =>
      rw [insertName]
      split
      · rw [List.mem_cons]
      · split
        · next heq => rw [heq, List.mem_cons, or_self_left]
        · rw [List.mem_cons, ih, List.mem_cons, or_left_comm]

/-- The list of symbols leaves no symbol out and holds nothing else. -/
theorem mem_symbols {K : Type} {p : Polynomial K} {name : String} :
    name ∈ p.symbols ↔ p.Mentions name := by
  have hfold : ∀ names found : List String,
      name ∈ names.foldl (fun ns n => insertName n ns) found ↔ name ∈ names ∨ name ∈ found := by
    intro names
    induction names with
    | nil => intro found; rw [List.foldl_nil, or_iff_right List.not_mem_nil]
    | cons n names ih =>
        intro found
        rw [List.foldl_cons, ih, mem_insertName, List.mem_cons, or_assoc, or_left_comm]
  rw [symbols, hfold, or_iff_left List.not_mem_nil, Atom.mem_symbolsOfTerms]

end Polynomial

/-! ## Operations bring in no symbols -/

/-- All symbols in the atom satisfy the predicate. -/
def Atom.Within (S : String → Prop) (a : Atom Float) : Prop :=
  ∀ name, a.Mentions name → S name

/-- All symbols in the sum satisfy the predicate. -/
def Polynomial.Within (S : String → Prop) (p : Formula) : Prop :=
  ∀ t ∈ p, ∀ f ∈ t.1, f.1.Within S

variable {S : String → Prop}

namespace Atom

end Atom

namespace Monomial

/-- All symbols in the product satisfy the predicate. -/
def Within (S : String → Prop) (m : Monomial Float) : Prop :=
  ∀ f ∈ m, f.1.Within S

variable {m n p : Monomial Float}

theorem Within.mul (hm : m.Within S) (hn : n.Within S) (h : Monomial.mul m n = some p) :
    p.Within S := by
  induction n generalizing m with
  | nil =>
      cases h
      exact hm
  | cons f n ih =>
      obtain ⟨hf, hn⟩ := List.forall_mem_cons.mp hn
      rw [Monomial.mul, List.foldlM_cons] at h
      obtain ⟨m', hm', hp⟩ := Option.bind_eq_some_iff.mp h
      refine ih (fun g hg => ?_) hn hp
      obtain heq | ⟨g', hg', heq⟩ := mem_of_mulAtom hm' g hg
      · rw [heq]
        exact hf
      · rw [heq]
        exact hm g' hg'

theorem Within.pow {k : Int} (hm : m.Within S) (h : Monomial.pow m k = some p) : p.Within S := by
  rw [eq_map_of_pow h]
  intro f hf
  obtain ⟨g, hg, rfl⟩ := List.mem_map.mp hf
  exact hm g hg

end Monomial

namespace Polynomial

/-- Gathering adds coefficients and drops terms; the monomials stay as they are. -/
theorem exists_of_mem_gather {terms : List (Monomial Float × Float)} {t : Monomial Float × Float}
    (h : t ∈ gather terms) : ∃ s ∈ terms, t.1 = s.1 := by
  have hfold : ∀ (terms found : List (Monomial Float × Float)),
      ∀ t ∈ terms.foldl absorb found, (∃ s ∈ terms, t.1 = s.1) ∨ ∃ s ∈ found, t.1 = s.1 := by
    intro terms
    induction terms with
    | nil => exact fun found t ht => .inr ⟨t, ht, rfl⟩
    | cons u terms ih =>
        intro found t ht
        have hstep : ∀ s ∈ absorb found u, s.1 = u.1 ∨ ∃ s' ∈ found, s.1 = s'.1 := by
          intro s hs
          rw [absorb.eq_def] at hs
          split at hs
          · rw [List.mem_singleton] at hs
            exact .inl (congrArg Prod.fst hs)
          · next m c rest =>
              split at hs
              · rcases List.mem_cons.mp hs with rfl | hs
                · exact .inr ⟨(m, c), List.mem_cons_self, rfl⟩
                · exact .inr ⟨s, List.mem_cons_of_mem _ hs, rfl⟩
              · rcases List.mem_cons.mp hs with rfl | hs
                · exact .inl rfl
                · exact .inr ⟨s, hs, rfl⟩
        rcases ih _ t ht with ⟨s, hs, heq⟩ | ⟨s, hs, heq⟩
        · exact .inl ⟨s, List.mem_cons_of_mem u hs, heq⟩
        · rcases hstep s hs with hsu | ⟨s', hs', heq'⟩
          · exact .inl ⟨u, List.mem_cons_self, heq.trans hsu⟩
          · exact .inr ⟨s', hs', heq.trans heq'⟩
  rw [gather] at h
  rcases hfold terms [] t (List.mem_reverse.mp (List.mem_filter.mp h).1) with hs | ⟨s, hs, -⟩
  · exact hs
  · cases hs

theorem within_gather {terms : List (Monomial Float × Float)}
    (h : ∀ t ∈ terms, Monomial.Within S t.1) : Within S (gather terms) := by
  intro t ht
  obtain ⟨s, hs, heq⟩ := exists_of_mem_gather ht
  rw [heq]
  exact h s hs

variable {p q r : Formula}

theorem Within.add (hp : Within S p) (hq : Within S q) : Within S (add p q) := by
  refine within_gather fun t ht => ?_
  rcases List.mem_merge.mp ht with hmem | hmem
  · exact hp t hmem
  · exact hq t hmem

theorem Within.scale (hp : Within S p) (c : Float) : Within S (scale p c) := by
  refine within_gather fun t ht => ?_
  obtain ⟨s, hs, rfl⟩ := List.mem_map.mp ht
  exact hp s hs

theorem Within.mul (hp : Within S p) (hq : Within S q) (h : mul p q = some r) : Within S r := by
  obtain ⟨terms, hterms, rfl⟩ := Option.map_eq_some_iff.mp h
  refine within_gather fun u hu => ?_
  obtain ⟨s, hs, t, ht, hu⟩ := exists_of_mem_products hterms (List.mem_mergeSort.mp hu)
  exact Monomial.Within.mul (hp s hs) (hq t ht) hu

end Polynomial

/-! ## Expressions -/

namespace Expr

variable {meaning? : String → Option (Meaning Float)} {value? : Option (String → Float)}

end Expr

/-! ## What a program knows -/

namespace Program

namespace Scope

variable {scope : Scope}

mutual

/-- Every name of a resolved expression is a parameter. -/
theorem Resolves.names :
    ∀ {e : Expr Float}, scope.Resolves e → ∀ name ∈ e.names, ∃ i, scope.param? name = some i
  | .number _, _ => by
      rw [Expr.names]
      exact List.forall_mem_nil _
  | .name _, h => by
      rw [Expr.names, List.forall_mem_singleton]
      exact h
  | .neg _, h => by
      rw [Expr.names]
      exact Resolves.names h
  | .binary _ _ _, h => by
      rw [Expr.names, List.forall_mem_append]
      exact ⟨Resolves.names h.1, Resolves.names h.2⟩
  | .call _ _, h => by
      rw [Expr.names]
      exact ResolvesAll.namesAll h.2

theorem ResolvesAll.namesAll :
    ∀ {es : List (Expr Float)}, scope.ResolvesAll es →
      ∀ name ∈ Expr.namesAll es, ∃ i, scope.param? name = some i
  | [], _ => by
      rw [Expr.namesAll]
      exact List.forall_mem_nil _
  | _ :: _, h => by
      rw [Expr.namesAll, List.forall_mem_append]
      exact ⟨Resolves.names h.1, ResolvesAll.namesAll h.2⟩

end

/-- Expansion looks for operators and helpers first, so it finds what a program knows. -/
theorem arity_of_function? {name : String} {apply : Callable} {n : Nat}
    (h : scope.function? name = some (apply, n)) :
    (scope.registry.meaning? name).map Meaning.arity = some n := by
  rw [function?] at h
  split at h
  · next op hop =>
      cases h
      rw [Registry.meaning?, hop]
      rfl
  · next hop =>
      obtain ⟨helper, hhelper, heq⟩ := Option.map_eq_some_iff.mp h
      cases heq
      rw [Registry.meaning?, hop, hhelper]
      rfl

mutual

theorem Resolves.callsFit :
    ∀ {e : Expr Float}, scope.Resolves e →
      e.CallsFit fun f => (scope.registry.meaning? f).map Meaning.arity
  | .number _, _ => trivial
  | .name _, _ => trivial
  | .neg _, h => by
      rw [Expr.CallsFit]
      exact Resolves.callsFit h
  | .binary _ _ _, h => by
      rw [Expr.CallsFit]
      exact ⟨Resolves.callsFit h.1, Resolves.callsFit h.2⟩
  | .call f arguments, h => by
      rw [Expr.CallsFit]
      obtain ⟨apply, hfunction⟩ := h.1
      exact ⟨arity_of_function? hfunction, ResolvesAll.callsFitAll h.2⟩

theorem ResolvesAll.callsFitAll :
    ∀ {es : List (Expr Float)}, scope.ResolvesAll es →
      Expr.CallsFitAll (fun f => (scope.registry.meaning? f).map Meaning.arity) es
  | [], _ => trivial
  | _ :: _, h => ⟨Resolves.callsFit h.1, ResolvesAll.callsFitAll h.2⟩

end

end Scope

end Program

end SymbolicRegression
