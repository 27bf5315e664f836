import SymbolicRegression.Node.Value
import SymbolicRegression.Proofs.CompiledProgram
import SymbolicRegression.Proofs.Resolution
import SymbolicRegression.Proofs.Trees.Notation

/-!
# The program of a tree

A tree is compiled from its text, so all that its program knows of a node is the node's name. That is
enough if the registry takes every name back to the node that it came from: an operator's name to
that operator, a variable's to a declared variable, and a constant's to no variable, which is decided
by its form alone. `Registry.Recognizes` says so of one node. The program of a tree of recognized
nodes has the constants and the value of the tree, as they are read off the tree's own listing.
-/

namespace SymbolicRegression

/-- The registry takes the name of the node back to the node. -/
def Registry.Recognizes (r : Registry) : Node → Prop
  | .operator op => Lexer.isName op.name = true ∧ r.operator? op.name = some op
  | .terminal t => Lexer.isName t.name = true ∧
    match t.kind with
    | .const => Name.isConstant t.name = true
    | .var => Name.isConstant t.name = false ∧ t.name ∈ r.variableNames

/-! ## Names as they are written -/

/-- A name has no quotation marks to lose. -/
theorem Name.stripQuotes_of_isName {name : String} (h : Lexer.isName name = true) :
    Name.stripQuotes name = name := by
  have hall : ∀ c ∈ name.toList, (c != apostrophe && c != '"') = true := by
    have hmark : ∀ c, Lexer.continuesName c = true → (c != apostrophe && c != '"') = true := by
      intro c hc
      rw [Bool.and_eq_true, bne_iff_ne, bne_iff_ne]
      constructor
      · rintro rfl
        exact absurd hc (by decide)
      · rintro rfl
        exact absurd hc (by decide)
    rw [Lexer.isName] at h
    split at h
    · cases h
    · next c cs heq =>
        obtain ⟨hc, hcs⟩ := Bool.and_eq_true_iff.mp h
        rw [heq, List.forall_mem_cons]
        refine ⟨hmark c (by rw [Lexer.continuesName, hc, Bool.true_or]), ?_⟩
        exact fun d hd => hmark d (List.all_eq_true.mp hcs d hd)
  rw [stripQuotes, List.filter_eq_self.mpr hall, String.ofList_toList]

theorem Registry.Recognizes.spelling {r : Registry} {n : Node} (h : r.Recognizes n) :
    n.spelling = n.name := by
  cases n with
  | operator op => rfl
  | terminal t => exact Name.stripQuotes_of_isName h.1

theorem Registry.Recognizes.isName_spelling {r : Registry} {n : Node} (h : r.Recognizes n) :
    Lexer.isName n.spelling = true := by
  rw [h.spelling]
  cases n with
  | operator op => exact h.1
  | terminal t => exact h.1

/-- The form of a terminal's name tells its kind. -/
theorem Registry.Recognizes.isConstant_name {r : Registry} {t : Terminal}
    (h : r.Recognizes (.terminal t)) : Name.isConstant t.name = (Node.terminal t).isConstant := by
  obtain ⟨-, hkind⟩ := h
  rw [Node.isConstant]
  split at hkind
  · next heq => rw [hkind, heq]; rfl
  · next heq => rw [hkind.1, heq]; rfl

namespace Tree

variable {r : Registry}

/-! ## Constants -/

mutual

/-- The constants that the expression uses are those that the tree holds, repetitions included. -/
theorem filter_names_expr :
    ∀ t : Tree, t.Fits → (∀ n ∈ t.preorder, r.Recognizes n) →
      t.expr.names.filter Name.isConstant = (t.preorder.filter Node.isConstant).map Node.name
  | .node (.terminal t) ts, hfits, h => by
      obtain rfl : ts = [] := List.eq_nil_of_length_eq_zero hfits.1.symm
      have ht := h (.terminal t) (by rw [preorder]; exact List.mem_cons_self)
      have hspell : Name.stripQuotes t.name = t.name := ht.spelling
      rw [expr, Expr.names, preorder, preorderAll, hspell, List.filter_singleton,
        List.filter_singleton, ht.isConstant_name]
      cases (Node.terminal t).isConstant with
      | true => rfl
      | false => rfl
  | .node (.operator op) ts, hfits, h => by
      rw [preorder, List.forall_mem_cons] at h
      rw [expr, Expr.names, preorder, List.filter_cons_of_neg (by simp [Node.isConstant])]
      exact filter_namesAll_exprs ts hfits.2 h.2

theorem filter_namesAll_exprs :
    ∀ ts : List Tree, FitsAll ts → (∀ n ∈ preorderAll ts, r.Recognizes n) →
      (Expr.namesAll (exprs ts)).filter Name.isConstant =
        ((preorderAll ts).filter Node.isConstant).map Node.name
  | [], _, _ => by rw [exprs, Expr.namesAll, preorderAll]; rfl
  | t :: ts, hfits, h => by
      rw [preorderAll, List.forall_mem_append] at h
      rw [exprs, Expr.namesAll, preorderAll, List.filter_append, List.filter_append,
        List.map_append, filter_names_expr t hfits.1 h.1, filter_namesAll_exprs ts hfits.2 h.2]

end

theorem constantNames_expr {t : Tree} (hfits : t.Fits)
    (h : ∀ n ∈ t.preorder, r.Recognizes n) :
    t.expr.constantNames = Preorder.constantNames t.preorder := by
  rw [Expr.constantNames, filter_names_expr t hfits h, Preorder.constantNames]

/-- Leaving out repetitions loses no name. -/
theorem mem_foldl_distinct {name : String} (names : List String) :
    ∀ found : List String,
      name ∈ names.foldl (fun found name =>
        if found.contains name then found else found ++ [name]) found ↔
        name ∈ found ∨ name ∈ names := by
  induction names with
  | nil => intro found; simp
  | cons n ns ih =>
      intro found
      rw [List.foldl_cons, ih]
      split
      · next hn =>
          rw [List.contains_iff_mem] at hn
          rw [List.mem_cons]
          constructor
          · rintro (h | h)
            · exact .inl h
            · exact .inr (.inr h)
          · rintro (h | rfl | h)
            · exact .inl h
            · exact .inl hn
            · exact .inr h
      · rw [List.mem_append, List.mem_singleton, List.mem_cons, or_assoc]

theorem mem_constantNames {nodes : List Node} {t : Terminal} (ht : .terminal t ∈ nodes)
    (hkind : t.kind = .const) : t.name ∈ Preorder.constantNames nodes := by
  rw [Preorder.constantNames, mem_foldl_distinct]
  refine .inr (List.mem_map.mpr ⟨.terminal t, List.mem_filter.mpr ⟨ht, ?_⟩, rfl⟩)
  simp [Node.isConstant, hkind]

/-! ## Names that are resolved -/

/-- The scope takes the name of the node to a parameter or to a function. -/
def ResolvedIn (scope : Program.Scope) : Node → Prop
  | .operator op => scope.function? op.name = some (op.apply, op.arity)
  | .terminal t => ∃ i, scope.param? (Name.stripQuotes t.name) = some i

variable {scope : Program.Scope}

mutual

theorem resolves_expr :
    ∀ t : Tree, t.Fits → (∀ n ∈ t.preorder, ResolvedIn scope n) → scope.Resolves t.expr
  | .node (.terminal t) _, _, h => by
      rw [expr, Program.Scope.Resolves]
      exact h (.terminal t) (by rw [preorder]; exact List.mem_cons_self)
  | .node (.operator op) ts, hfits, h => by
      rw [preorder, List.forall_mem_cons] at h
      obtain ⟨hop, hts⟩ := h
      rw [expr, Program.Scope.Resolves]
      refine ⟨⟨op.apply, ?_⟩, resolves_exprs ts hfits.2 hts⟩
      rw [length_exprs, ← hfits.1]
      exact hop

theorem resolves_exprs :
    ∀ ts : List Tree, FitsAll ts → (∀ n ∈ preorderAll ts, ResolvedIn scope n) →
      scope.ResolvesAll (exprs ts)
  | [], _, _ => by rw [exprs, Program.Scope.ResolvesAll]; trivial
  | t :: ts, hfits, h => by
      rw [preorderAll, List.forall_mem_append] at h
      rw [exprs, Program.Scope.ResolvesAll]
      exact ⟨resolves_expr t hfits.1 h.1, resolves_exprs ts hfits.2 h.2⟩

theorem length_exprs : ∀ ts : List Tree, (exprs ts).length = ts.length
  | [] => by rw [exprs]; rfl
  | t :: ts => by rw [exprs, List.length_cons, length_exprs ts, List.length_cons]

end

theorem exists_idxOf? {names : List String} {name : String} (h : name ∈ names) :
    ∃ i, names.idxOf? name = some i := by
  cases hi : names.idxOf? name with
  | none => exact absurd h (List.idxOf?_eq_none_iff.mp hi)
  | some i => exact ⟨i, rfl⟩

theorem resolvedIn_of_recognizes {t : Tree} {constantNames : List String}
    (hconstants : constantNames = Preorder.constantNames t.preorder)
    (h : ∀ n ∈ t.preorder, r.Recognizes n) :
    ∀ n ∈ t.preorder, ResolvedIn ⟨r, constantNames, r.variableNames⟩ n := by
  subst hconstants
  intro n hn
  have hrecognized := h n hn
  have hspell := hrecognized.spelling
  cases n with
  | operator op =>
      rw [ResolvedIn, Program.Scope.function?, hrecognized.2]
  | terminal leaf =>
      rw [Node.spelling, Node.name] at hspell
      obtain ⟨-, hkind⟩ := hrecognized
      rw [ResolvedIn, hspell, Program.Scope.param?]
      split at hkind
      · next heq =>
          rw [if_pos hkind]
          exact exists_idxOf? (mem_constantNames hn heq)
      · obtain ⟨hform, hvariable⟩ := hkind
        obtain ⟨i, hi⟩ := exists_idxOf? hvariable
        rw [if_neg (by rw [hform]; exact Bool.false_ne_true), hi]
        exact ⟨_, rfl⟩

/-! ## Values -/

/-- The reading of names and calls agrees with the node: it gives a terminal its number, and the name
of an operator that operator. -/
def ReadIn (number : String → Float) (I : Interpretation Float) : Node → Prop
  | .operator op => I.function? op.name = some op.apply
  | .terminal t => I.number? (Name.stripQuotes t.name) = some (number t.name)

/-- The value of a tree by recursion. -/
def value (number : String → Float) (t : Tree) : Float :=
  t.fold (fun n => n.value number []) fun n values => n.value number values

variable {number : String → Float} {I : Interpretation Float}

/-- An operator without arguments is a leaf of the fold, and is applied all the same. -/
theorem value_operator {op : Operator} {ts : List Tree} (h : op.arity = ts.length) :
    (node (.operator op) ts).value number = op.apply (ts.map (value number)) := by
  rw [value, fold]
  split
  · next hzero =>
      obtain rfl : ts = [] := List.eq_nil_of_length_eq_zero (h.symm.trans hzero)
      rfl
  · rw [foldAll_eq_map]
    rfl

mutual

theorem value?_expr :
    ∀ t : Tree, t.Fits → (∀ n ∈ t.preorder, ReadIn number I n) →
      t.expr.value? I = some (t.value number)
  | .node (.terminal t) ts, _, h => by
      have ht := h (.terminal t) (by rw [preorder]; exact List.mem_cons_self)
      rw [expr, Expr.value?]
      exact ht
  | .node (.operator op) ts, hfits, h => by
      rw [preorder, List.forall_mem_cons] at h
      obtain ⟨hop, hts⟩ := h
      rw [ReadIn] at hop
      rw [expr, Expr.value?, hop, valuesAll?_exprs ts hfits.2 hts, value_operator hfits.1]

theorem valuesAll?_exprs :
    ∀ ts : List Tree, FitsAll ts → (∀ n ∈ preorderAll ts, ReadIn number I n) →
      Expr.valuesAll? I (exprs ts) = some (ts.map (value number))
  | [], _, _ => by rw [exprs, Expr.valuesAll?, List.map_nil]
  | t :: ts, hfits, h => by
      rw [preorderAll, List.forall_mem_append] at h
      rw [exprs, Expr.valuesAll?, value?_expr t hfits.1 h.1, valuesAll?_exprs ts hfits.2 h.2,
        List.map_cons]

end

theorem lookup_zip_map {names : List String} {name : String} (h : name ∈ names) :
    (names.zip (names.map number)).lookup name = some (number name) := by
  induction names with
  | nil => cases h
  | cons n ns ih =>
      rw [List.map_cons, List.zip_cons_cons, List.lookup_cons]
      split
      · next heq => rw [eq_of_beq heq]
      · next hne =>
          rcases List.mem_cons.mp h with rfl | hmem
          · rw [beq_self_eq_true] at hne
            cases hne
          · exact ih hmem

theorem readIn_of_recognizes {t : Tree} (h : ∀ n ∈ t.preorder, r.Recognizes n) :
    ∀ n ∈ t.preorder, ReadIn number (r.interpretation
      ((Preorder.constantNames t.preorder).zip ((Preorder.constantNames t.preorder).map number))
      (r.variableNames.zip (r.variableNames.map number))) n := by
  intro n hn
  have hrecognized := h n hn
  have hspell := hrecognized.spelling
  cases n with
  | operator op =>
      rw [ReadIn]
      simp only [Registry.interpretation, hrecognized.2]
  | terminal leaf =>
      rw [Node.spelling, Node.name] at hspell
      obtain ⟨-, hkind⟩ := hrecognized
      rw [ReadIn, hspell]
      simp only [Registry.interpretation]
      split at hkind
      · next heq =>
          rw [if_pos hkind]
          exact lookup_zip_map (mem_constantNames hn heq)
      · obtain ⟨hform, hvariable⟩ := hkind
        rw [if_neg (by rw [hform]; exact Bool.false_ne_true)]
        exact lookup_zip_map hvariable

/-! ## Programs -/

/-- A tree of recognized nodes has a program, with the constants of the tree and the variables of the
registry as parameters, and a call of the program has the value of the tree's listing. -/
theorem exists_compile_text {t : Tree} (hfits : t.Fits)
    (h : ∀ n ∈ t.preorder, r.Recognizes n) :
    ∃ p, compile (Preorder.text t.preorder) r = .ok p ∧
      p.constantNames = Preorder.constantNames t.preorder ∧
      p.variableNames = r.variableNames ∧
      ∀ number : String → Float, ∃ value, p.call? (p.params.map number) = some value ∧
        Preorder.value? number t.preorder = some value := by
  have hconstants := constantNames_expr hfits h
  obtain ⟨p, hp⟩ := Program.exists_compile
    (resolves_expr t hfits (resolvedIn_of_recognizes hconstants h))
  obtain ⟨hc, hv, -⟩ := Program.compile_eq_ok hp
  rw [hconstants] at hc
  refine ⟨p, ?_, hc, hv, ?_⟩
  · rw [compile, parse_text hfits fun n hn => (h n hn).isName_spelling]
    exact hp
  · intro number
    obtain ⟨result, hresult, hcall⟩ := Program.call_append hp
      (p.constantNames.map number) (p.variableNames.map number)
      (by rw [List.length_map]) (by rw [List.length_map])
    rw [Program.valueOf?, hc, hv, value?_expr t hfits (readIn_of_recognizes h)] at hresult
    refine ⟨result, ?_, ?_⟩
    · rw [Program.params, List.map_append]
      exact hcall
    · rw [← hresult]
      exact Preorder.fold?_preorder hfits

end Tree

end SymbolicRegression
