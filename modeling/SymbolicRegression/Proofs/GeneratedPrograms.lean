import Mathlib.Tactic.IntervalCases
import SymbolicRegression.Proofs.Generation
import SymbolicRegression.Proofs.Registries
import SymbolicRegression.Proofs.Trees.Compiled

/-!
# Generated trees compile to what they compute

A generated tree goes through a text on its way to a program. Grown trees hold nothing that would be
lost there: their operators come from the registry, where a name leads back to one operator, and
their leaves are declared variables, named constants of the registry and fresh constants. The
conditions on the registry are those under which its names can be told apart again: every name is one
name of the notation, and exactly the constants have the form of a constant.
-/

namespace SymbolicRegression

/-! ## Names of constants -/

namespace Name

theorem isDigit_of_between {c : Char} (hlow : '1' ≤ c) (hhigh : c ≤ '9') : c.isDigit = true := by
  rw [Char.isDigit_iff_toNat]
  have hlow' : '1'.toNat ≤ c.toNat := hlow
  have hhigh' : c.toNat ≤ '9'.toNat := hhigh
  have hzero : '0'.toNat ≤ '1'.toNat := by decide
  exact ⟨Nat.le_trans hzero hlow', hhigh'⟩

/-- The digits of a positive number do not start with a zero. -/
theorem exists_toDigits_eq (n : Nat) :
    0 < n → ∃ d ds, Nat.toDigits 10 n = d :: ds ∧ '1' ≤ d ∧ d ≤ '9' := by
  induction n using Nat.strong_induction_on with
  | _ n ih =>
      intro hpos
      by_cases hn : n < 10
      · refine ⟨n.digitChar, [], Nat.toDigits_of_lt_base hn, ?_⟩
        interval_cases n
        all_goals decide
      · obtain ⟨d, ds, hds, hd⟩ := ih (n / 10) (by omega) (by omega)
        refine ⟨d, ds ++ [(n % 10).digitChar], ?_, hd⟩
        rw [Nat.toDigits_of_base_le (by decide) (Nat.le_of_not_lt hn), hds, List.cons_append]

/-- A fresh constant has the form of a constant. -/
theorem isConstant_numbered (n : Nat) : isConstant (numbered "c" (n + 1)) = true := by
  obtain ⟨d, ds, hds, hlow, hhigh⟩ := exists_toDigits_eq (n + 1) n.succ_pos
  have hlist : (numbered "c" (n + 1)).toList = 'c' :: d :: ds := by
    rw [numbered, hds, String.toList_append, String.toList_ofList, String.toList_ofList]
    rfl
  rw [isConstant, hlist]
  simp only [Bool.and_eq_true, decide_eq_true_eq]
  refine ⟨⟨hlow, hhigh⟩, List.all_eq_true.mpr fun c hc => ?_⟩
  refine Nat.isDigit_of_mem_toDigits (b := 10) (n := n + 1) (by decide) (by decide) ?_
  rw [hds]
  exact List.mem_cons_of_mem d hc

theorem isName_of_isConstant {name : String} (h : isConstant name = true) :
    Lexer.isName name = true := by
  have hdigit : ∀ c : Char, c.isDigit = true → Lexer.continuesName c = true := by
    intro c hc
    rw [Lexer.continuesName, hc, Bool.or_true]
  rw [isConstant] at h
  split at h
  · next d ds heq =>
      simp only [Bool.and_eq_true, decide_eq_true_eq] at h
      obtain ⟨⟨hlow, hhigh⟩, hdigits⟩ := h
      rw [Lexer.isName, heq]
      simp only [List.all_cons, Bool.and_eq_true]
      refine ⟨by decide, hdigit d (isDigit_of_between hlow hhigh), ?_⟩
      exact List.all_eq_true.mpr fun c hc => hdigit c (List.all_eq_true.mp hdigits c hc)
  · cases h

end Name

/-! ## Grown trees -/

namespace Tree

variable {r : Registry}

mutual

/-- A grown tree gives every operator as many children as it takes: there is one for each of its
argument types. -/
theorem fits_of_grown : ∀ (t : Tree) {type : ExprType}, Grown r type t → t.Fits
  | .node n ts, type, h => by
      cases h with
      | constant k => exact ⟨rfl, trivial⟩
      | named _ => exact ⟨rfl, trivial⟩
      | ephemeral k _ => exact ⟨rfl, trivial⟩
      | operator _ hts => exact ⟨hts.length_eq, fitsAll_of_grown ts hts⟩
      | shape hop hts =>
          obtain ⟨-, rfl⟩ := Registry.of_operatorWithSignature? hop
          exact ⟨hts.length_eq, fitsAll_of_grown ts hts⟩

theorem fitsAll_of_grown :
    ∀ (ts : List Tree) {types : List ExprType}, List.Forall₂ (Grown r) types ts → FitsAll ts
  | [], _, _ => trivial
  | t :: ts, _, .cons ht hts => ⟨fits_of_grown t ht, fitsAll_of_grown ts hts⟩

end

end Tree

/-- The names of the registry can be told apart: each is one name of the notation, and exactly those
of constants have the form of a constant. -/
structure Registry.Distinguishes (r : Registry) : Prop where
  operatorNames : ∀ op ∈ r.operators, Lexer.isName op.name = true
  variableNames : ∀ name ∈ r.variableNames,
    Lexer.isName name = true ∧ Name.isConstant name = false
  constantNames : ∀ t, .named t ∈ r.terminals → t.kind = .const → Name.isConstant t.name = true

namespace Registry

variable {r : Registry}

theorem recognizes_operator (hr : r.Reachable) (hnames : r.Distinguishes) {op : Operator}
    (h : op ∈ r.operators) : r.Recognizes (.operator op) :=
  ⟨hnames.operatorNames op h, hr.operator?_eq_some h⟩

theorem recognizes_constant {name : String} (h : Name.isConstant name = true) :
    r.Recognizes (.terminal (Terminal.const name)) :=
  ⟨Name.isName_of_isConstant h, h⟩

theorem recognizes_named (hnames : r.Distinguishes) {t : Terminal}
    (h : .named t ∈ r.terminals) : r.Recognizes (.terminal t) := by
  obtain ⟨name, kind⟩ := t
  cases kind with
  | const => exact recognizes_constant (hnames.constantNames _ h rfl)
  | var =>
      have hdeclared := mem_variableNames rfl h
      obtain ⟨hname, hform⟩ := hnames.variableNames name hdeclared
      exact ⟨hname, hform, hdeclared⟩

end Registry

namespace Tree

variable {r : Registry}

mutual

theorem recognizes_of_grown (hr : r.Reachable) (hnames : r.Distinguishes) :
    ∀ (t : Tree) {type : ExprType}, Grown r type t → ∀ n ∈ t.preorder, r.Recognizes n
  | .node n ts, type, h => by
      rw [preorder, List.forall_mem_cons]
      cases h with
      | constant k =>
          refine ⟨Registry.recognizes_constant (Name.isConstant_numbered k), ?_⟩
          rw [preorderAll]
          exact List.forall_mem_nil _
      | named ht =>
          refine ⟨Registry.recognizes_named hnames
            (Registry.mem_terminals_of_mem_terminalsFor ht), ?_⟩
          rw [preorderAll]
          exact List.forall_mem_nil _
      | ephemeral k _ =>
          refine ⟨Registry.recognizes_constant (Name.isConstant_numbered k), ?_⟩
          rw [preorderAll]
          exact List.forall_mem_nil _
      | operator hop hts =>
          refine ⟨Registry.recognizes_operator hr hnames
            (Registry.mem_operators_of_mem_operatorsReturning hop), ?_⟩
          exact recognizesAll_of_grown hr hnames ts hts
      | shape hop hts =>
          refine ⟨Registry.recognizes_operator hr hnames
            (Registry.of_operatorWithSignature? hop).1, ?_⟩
          exact recognizesAll_of_grown hr hnames ts hts

theorem recognizesAll_of_grown (hr : r.Reachable) (hnames : r.Distinguishes) :
    ∀ (ts : List Tree) {types : List ExprType}, List.Forall₂ (Grown r) types ts →
      ∀ n ∈ preorderAll ts, r.Recognizes n
  | [], _, _ => by
      rw [preorderAll]
      exact List.forall_mem_nil _
  | t :: ts, _, .cons ht hts => by
      rw [preorderAll, List.forall_mem_append]
      exact ⟨recognizes_of_grown hr hnames t ht, recognizesAll_of_grown hr hnames ts hts⟩

end

end Tree

/-! ## From the generator to the program -/

/-- Whatever is generated from a registry whose names can be told apart lists one tree, and its text
compiles. The program's constants are those of the tree, in the order in which the tree first shows
them, its variables are those of the registry, and for every assignment of numbers to the names its
value is that of the listing, taken from the leaves up with each node's own function. This holds for
every range of heights, policy and root type, from every state of the stream, and however many
constants have been named before. -/
theorem compile_generated {r : Registry} (hr : r.Reachable) (hnames : r.Distinguishes)
    {low high : Nat} {policy : Policy} {root : Option ExprType} {stream : Stream} {named : Nat}
    {others : NameCounter} {t : Tree} {rest : Sources}
    (h : generate r low high policy root ⟨stream, ⟨⟨"c", named⟩, others⟩⟩ =
      some (.ok t, rest)) :
    Preorder.isValid t.preorder = true ∧
      ∃ p, compile (Preorder.text t.preorder) r = .ok p ∧
        p.constantNames = Preorder.constantNames t.preorder ∧
        p.variableNames = r.variableNames ∧
        ∀ number : String → Float, ∃ value, p.call? (p.params.map number) = some value ∧
          Preorder.value? number t.preorder = some value := by
  have hstem : Draw.Lettered ⟨⟨"c", named⟩, others⟩ := rfl
  have hgrown := grown_of_generate hstem h
  have hfits := t.fits_of_grown hgrown
  exact ⟨Preorder.isValid_preorder hfits,
    Tree.exists_compile_text hfits (t.recognizes_of_grown hr hnames hgrown)⟩

/-- Both weighted operators and two minted variables. -/
def affineRegistry : Registry :=
  let first := (Registry.weighted "affine").newVariable {}
  (first.2.1.newVariable first.2.2).2.1

theorem affineRegistry_reachable : affineRegistry.Reachable :=
  .newVariable _ (.newVariable _ (.weighted "affine"))

theorem affineRegistry_distinguishes : affineRegistry.Distinguishes where
  operatorNames := by
    intro op hop
    change op ∈ [Registry.weightedSum, Registry.weightedProduct] at hop
    simp only [List.mem_cons, List.not_mem_nil, or_false] at hop
    rcases hop with rfl | rfl
    · decide
    · decide
  variableNames := by decide
  constantNames := by
    intro t ht hkind
    have hall : ∀ spec ∈ affineRegistry.terminals, spec.type ≠ .const := by decide
    refine absurd ?_ (hall _ ht)
    rw [TerminalSpec.type, Terminal.type, hkind]

/-- Has a tree been drawn whose listing has this text and these constants? -/
def isDrawn (text : String) (constantNames : List String) :
    Option (Except GenerationError Tree × Sources) → Bool
  | some (.ok t, _) =>
    Preorder.text t.preorder == text && Preorder.constantNames t.preorder == constantNames
  | _ => false

theorem exists_of_isDrawn {text : String} {constantNames : List String}
    {outcome : Option (Except GenerationError Tree × Sources)}
    (h : isDrawn text constantNames outcome = true) :
    ∃ t rest, outcome = some (.ok t, rest) ∧ Preorder.text t.preorder = text ∧
      Preorder.constantNames t.preorder = constantNames := by
  match outcome with
  | some (.ok t, rest) =>
      obtain ⟨htext, hnames⟩ := Bool.and_eq_true_iff.mp h
      exact ⟨t, rest, rfl, eq_of_beq htext, eq_of_beq hnames⟩
  | some (.error _, _) => cases h
  | none => cases h

/-- A tree with four fresh constants, one of which is drawn before the tree below it. -/
theorem compile_generated_affine :
    ∃ t rest p, generate affineRegistry 2 3 Policy.full none ⟨⟨11⟩, {}⟩ = some (.ok t, rest) ∧
      Preorder.text t.preorder = "wsum(wmul(c1, wsum(wmul(c2, x2), c3)), c4)" ∧
      compile (Preorder.text t.preorder) affineRegistry = .ok p ∧
      p.constantNames = ["c1", "c2", "c3", "c4"] ∧ p.variableNames = ["x1", "x2"] ∧
      ∀ number : String → Float, ∃ value, p.call? (p.params.map number) = some value ∧
        Preorder.value? number t.preorder = some value := by
  have hrun : isDrawn "wsum(wmul(c1, wsum(wmul(c2, x2), c3)), c4)" ["c1", "c2", "c3", "c4"]
      (generate affineRegistry 2 3 Policy.full none ⟨⟨11⟩, {}⟩) = true := by
    decide +kernel
  obtain ⟨t, rest, h, htext, hnames⟩ := exists_of_isDrawn hrun
  obtain ⟨-, p, hp, hc, hv, hcall⟩ :=
    compile_generated affineRegistry_reachable affineRegistry_distinguishes h
  refine ⟨t, rest, p, h, htext, hp, hc.trans hnames, ?_, hcall⟩
  rw [hv]
  rfl

end SymbolicRegression
