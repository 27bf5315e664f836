import SymbolicRegression.Node.Text
import SymbolicRegression.Proofs.Lexing
import SymbolicRegression.Proofs.Parsing.Derivations
import SymbolicRegression.Proofs.Trees.Listing

/-!
# The text of a tree is read as that tree

A tree is written as nested calls. Two facts take its text back to an expression with the same shape.
The first is about characters: the text is split into the tokens it was written from, because a name
is always followed by a parenthesis, a comma or the end. The second is about tokens: they are those
of a derivation, in which every sum is a single atom. The grammar then leaves the parser no choice.

Both facts are inductions over the tree with a second statement for the rows of arguments. A row is
treated from its second tree on, where every tree has a comma in front.
-/

namespace SymbolicRegression

/-- The name that a node is written with. -/
def Node.spelling : Node → String
  | operator op => op.name
  | terminal t => Name.stripQuotes t.name

/-- The text of a node without children. -/
def Preorder.leafText : Node → String
  | .terminal t => Name.stripQuotes t.name
  | .operator op => callText op.name []

namespace Tree

/-- Is every node written with one name? -/
def Spellable (t : Tree) : Prop :=
  ∀ n ∈ t.preorder, Lexer.isName n.spelling = true

mutual

/-- The expression with the shape of the tree. -/
def expr : Tree → Expr Float
  | node (.terminal t) _ => .name (Name.stripQuotes t.name)
  | node (.operator op) ts => .call op.name (exprs ts)

def exprs : List Tree → List (Expr Float)
  | [] => []
  | t :: ts => expr t :: exprs ts

end

mutual

/-- The tokens of the tree in call notation. -/
def kinds : Tree → List TokenKind
  | node (.terminal t) _ => [.name (Name.stripQuotes t.name)]
  | node (.operator op) [] => [.name op.name, .leftParen, .rightParen]
  | node (.operator op) (t :: ts) =>
    .name op.name :: .leftParen :: (kinds t ++ kindsAfter ts ++ [.rightParen])

/-- The tokens of a row of arguments behind the first, each with a comma in front. -/
def kindsAfter : List Tree → List TokenKind
  | [] => []
  | t :: ts => .comma :: (kinds t ++ kindsAfter ts)

end

/-- The tree in call notation. -/
def text (t : Tree) : String :=
  t.fold Preorder.leafText fun n arguments => Preorder.callText n.name arguments

/-- What is written behind the first argument of a row. -/
def textAfter : List Tree → List Char
  | [] => []
  | t :: ts => ',' :: ' ' :: (t.text.toList ++ textAfter ts)

/-! ## Characters -/

theorem toList_callText (name : String) (arguments : List String) :
    (Preorder.callText name arguments).toList =
      name.toList ++ '(' :: ((", ".intercalate arguments).toList ++ [')']) := by
  rw [Preorder.callText, String.toList_append, String.toList_append, String.toList_append,
    List.append_assoc, List.append_assoc]
  rfl

theorem text_terminal (t : Terminal) (ts : List Tree) :
    (node (.terminal t) ts).text = Name.stripQuotes t.name :=
  rfl

/-- An operator without arguments is a leaf, but its text is that of a call all the same. -/
theorem text_operator {op : Operator} {ts : List Tree} (h : op.arity = ts.length) :
    (node (.operator op) ts).text = Preorder.callText op.name (ts.map text) := by
  rw [text, fold]
  split
  · next hzero =>
      obtain rfl : ts = [] := List.eq_nil_of_length_eq_zero (h.symm.trans hzero)
      rfl
  · rw [foldAll_eq_map]
    rfl

theorem toList_intercalate_text (t : Tree) (ts : List Tree) :
    (", ".intercalate ((t :: ts).map text)).toList = t.text.toList ++ textAfter ts := by
  induction ts generalizing t with
  | nil =>
      rw [List.map_singleton, String.intercalate_singleton, textAfter, List.append_nil]
  | cons u us ih =>
      rw [List.map_cons, List.map_cons, String.intercalate_cons_cons, ← List.map_cons,
        String.toList_append, String.toList_append, ih, textAfter, List.append_assoc]
      rfl

theorem separated_textAfter {ts : List Tree} {cs : List Char} (h : Lexer.Separated cs) :
    Lexer.Separated (textAfter ts ++ cs) := by
  cases ts with
  | nil => exact h
  | cons t ts => exact Lexer.separated_cons rfl

mutual

theorem lexes_text :
    ∀ (t : Tree), t.Fits → t.Spellable → ∀ {cs : List Char} {kinds : List TokenKind},
      Lexer.Separated cs → Lexer.Lexes cs kinds →
      Lexer.Lexes (t.text.toList ++ cs) (t.kinds ++ kinds)
  | .node (.terminal t) ts, _, hspell, cs, kinds, hcs, h => by
      have hname := hspell (.terminal t) (by rw [preorder]; exact List.mem_cons_self)
      rw [text_terminal, Tree.kinds]
      exact .name hname hcs h
  | .node (.operator op) [], hfits, hspell, cs, kinds, _, h => by
      have hname := hspell (.operator op) (by rw [preorder]; exact List.mem_cons_self)
      rw [text_operator hfits.1, toList_callText, Tree.kinds, List.append_assoc]
      exact .name hname (Lexer.separated_cons rfl) h.rightParen.leftParen
  | .node (.operator op) (t :: ts), hfits, hspell, cs, kinds, _, h => by
      have hname := hspell (.operator op) (by rw [preorder]; exact List.mem_cons_self)
      rw [Spellable, preorder, preorderAll, List.forall_mem_cons, List.forall_mem_append] at hspell
      obtain ⟨-, ht, hts⟩ := hspell
      have hrow := lexes_textAfter ts hfits.2.2 hts (Lexer.separated_cons rfl) h.rightParen
      have hfirst := lexes_text t hfits.2.1 ht (separated_textAfter (Lexer.separated_cons rfl)) hrow
      rw [text_operator hfits.1, toList_callText, toList_intercalate_text, Tree.kinds]
      simp only [List.append_assoc, List.cons_append, List.nil_append]
      exact .name hname (Lexer.separated_cons rfl) hfirst.leftParen

theorem lexes_textAfter :
    ∀ (ts : List Tree), FitsAll ts →
      (∀ n ∈ preorderAll ts, Lexer.isName n.spelling = true) →
      ∀ {cs : List Char} {kinds : List TokenKind},
      Lexer.Separated cs → Lexer.Lexes cs kinds →
      Lexer.Lexes (textAfter ts ++ cs) (kindsAfter ts ++ kinds)
  | [], _, _, cs, kinds, _, h => by
      rw [textAfter, kindsAfter]
      exact h
  | t :: ts, hfits, hspell, cs, kinds, hcs, h => by
      rw [preorderAll, List.forall_mem_append] at hspell
      have hrow := lexes_textAfter ts hfits.2 hspell.2 hcs h
      have hfirst := lexes_text t hfits.1 hspell.1 (separated_textAfter hcs) hrow
      rw [textAfter, kindsAfter]
      simp only [List.append_assoc, List.cons_append]
      exact hfirst.space.comma

end

/-! ## Tokens -/

/-- A sum that is a single atom. -/
def atomAlone (a : Grammar.AtomTree) : Grammar.SumTree :=
  .mk (.mk (.power (.bare a)) .done) .done

theorem kinds_atomAlone (a : Grammar.AtomTree) : (atomAlone a).kinds = a.kinds := by
  simp only [atomAlone, Grammar.SumTree.kinds, Grammar.ProductTree.kinds,
    Grammar.SignedTree.kinds, Grammar.PowerTree.kinds, Grammar.ProductTail.kinds,
    Grammar.SumTail.kinds, List.append_nil]

theorem expr_atomAlone (a : Grammar.AtomTree) : (atomAlone a).expr = a.expr := by
  simp only [atomAlone, Grammar.SumTree.expr, Grammar.ProductTree.expr,
    Grammar.SignedTree.expr, Grammar.PowerTree.expr, Grammar.ProductTail.exprFrom,
    Grammar.SumTail.exprFrom]

mutual

theorem exists_atom :
    ∀ t : Tree, ∃ a : Grammar.AtomTree, a.kinds = t.kinds ∧ a.expr = t.expr
  | .node (.terminal t) _ =>
      ⟨.name (Name.stripQuotes t.name), by rw [Grammar.AtomTree.kinds, kinds],
        by rw [Grammar.AtomTree.expr, expr]⟩
  | .node (.operator op) [] =>
      ⟨.emptyCall op.name, by rw [Grammar.AtomTree.kinds, kinds],
        by rw [Grammar.AtomTree.expr, expr, exprs]⟩
  | .node (.operator op) (t :: ts) => by
      obtain ⟨a, hkinds, hexpr⟩ := exists_atom t
      obtain ⟨row, hrowKinds, hrowExprs⟩ := exists_row ts a
      refine ⟨.call op.name row, ?_, ?_⟩
      · rw [Grammar.AtomTree.kinds, hrowKinds, hkinds, kinds]
      · rw [Grammar.AtomTree.expr, hrowExprs, hexpr, expr, exprs]

theorem exists_row :
    ∀ (ts : List Tree) (a : Grammar.AtomTree), ∃ row : Grammar.RowTree,
      row.kinds = a.kinds ++ kindsAfter ts ∧ row.exprs = a.expr :: exprs ts
  | [], a => by
      refine ⟨.last (atomAlone a), ?_, ?_⟩
      · rw [Grammar.RowTree.kinds, kinds_atomAlone, kindsAfter, List.append_nil]
      · rw [Grammar.RowTree.exprs, expr_atomAlone, exprs]
  | t :: ts, a => by
      obtain ⟨b, hkinds, hexpr⟩ := exists_atom t
      obtain ⟨row, hrowKinds, hrowExprs⟩ := exists_row ts b
      refine ⟨.more (atomAlone a) row, ?_, ?_⟩
      · rw [Grammar.RowTree.kinds, kinds_atomAlone, hrowKinds, hkinds, kindsAfter]
      · rw [Grammar.RowTree.exprs, expr_atomAlone, hrowExprs, hexpr, exprs]

end

/-! ## Texts -/

/-- Writing a node is a step of the fold, although an operator without arguments is written as a call
and folded as a leaf. -/
theorem pushText_eq_push (n : Node) :
    Preorder.pushText n =
      Preorder.push Preorder.leafText (fun n arguments => Preorder.callText n.name arguments) n := by
  funext texts
  rw [Preorder.push]
  cases n with
  | terminal t => rfl
  | operator op =>
      have harity : (Node.operator op).arity = op.arity := rfl
      rw [Preorder.pushText, harity]
      by_cases hzero : op.arity = 0
      · rw [if_pos hzero, hzero, if_neg (Nat.not_lt_zero _), List.take_zero, List.drop_zero]
        rfl
      · rw [if_neg hzero]
        rfl

theorem text?_eq_fold? (nodes : List Node) :
    Preorder.text? nodes =
      Preorder.fold? Preorder.leafText (fun n arguments => Preorder.callText n.name arguments)
        nodes := by
  have hpush : Preorder.pushText =
      Preorder.push Preorder.leafText fun n arguments => Preorder.callText n.name arguments :=
    funext pushText_eq_push
  rw [Preorder.text?, Preorder.fold?, Preorder.reduce, hpush]
  generalize List.foldr _ (some []) nodes = stack
  cases stack with
  | none => rfl
  | some texts =>
      cases texts with
      | nil => rfl
      | cons text texts =>
          cases texts with
          | nil => rfl
          | cons _ _ => rfl

theorem text_preorder {t : Tree} (h : t.Fits) : Preorder.text t.preorder = t.text := by
  have htext : Preorder.text? t.preorder = some t.text := by
    rw [text?_eq_fold?]
    exact Preorder.fold?_preorder h
  rw [Preorder.text, htext, Option.getD_some]

/-- The text of a tree is read as the expression with its shape. -/
theorem parse_text {t : Tree} (hfits : t.Fits) (hspell : t.Spellable) :
    parse (Preorder.text t.preorder) = .ok t.expr := by
  have hlexes := lexes_text t hfits hspell Lexer.separated_nil Lexer.lexes_nil
  rw [List.append_nil, List.append_nil] at hlexes
  obtain ⟨tokens, htokens, hkinds⟩ := hlexes 0
  obtain ⟨a, haKinds, haExpr⟩ := exists_atom t
  rw [text_preorder hfits, parse, tokenize, htokens]
  refine Parser.whole_eq_ok_iff.mpr ⟨atomAlone a, ?_, ?_⟩
  · rw [kinds_atomAlone, haKinds, hkinds]
  · rw [expr_atomAlone, haExpr]

end Tree

end SymbolicRegression
