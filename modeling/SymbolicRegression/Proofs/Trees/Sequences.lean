import SymbolicRegression.Individual
import SymbolicRegression.Proofs.Resolution
import SymbolicRegression.Proofs.Trees.Notation

/-!
# Which sequences are listings

Three readers judge a sequence of nodes. One counts open places from the left. The fold and the text
keep a stack from the right, each in its own way: they fail where the stack holds too few values for
a node, or not exactly one at the end. None of them builds a tree, and yet each accepts exactly the
listings of trees, so they accept the same sequences.

A reader that has come through a sequence has passed the listings of a whole row of trees: one for
each place that was open, or one for each value on the stack. That is the invariant of both
inductions, and they share their step: a node in front of a row takes as many trees from it as it
has children.

So the text of a valid sequence is the text of a tree, and is read as that tree. The placeholder of
any other sequence starts with a character at which no token starts. And as a listing determines its
tree, valid sequences and trees correspond one to one; what is folded over a sequence is folded over
its tree.
-/

namespace SymbolicRegression

namespace Tree

/-! ## Rows of trees -/

theorem fitsAll_iff_forall {ts : List Tree} : FitsAll ts ↔ ∀ t ∈ ts, t.Fits := by
  induction ts with
  | nil => simp [FitsAll]
  | cons t ts ih => rw [FitsAll, List.forall_mem_cons, ih]

theorem preorderAll_append (ts us : List Tree) :
    preorderAll (ts ++ us) = preorderAll ts ++ preorderAll us := by
  induction ts with
  | nil => rw [preorderAll, List.nil_append, List.nil_append]
  | cons t ts ih => rw [List.cons_append, preorderAll, preorderAll, ih, List.append_assoc]

/-- The row after a node has taken its children from the front. -/
def adopt (n : Node) (ts : List Tree) : List Tree :=
  node n (ts.take n.arity) :: ts.drop n.arity

variable {n : Node} {ts : List Tree}

theorem preorderAll_adopt : preorderAll (adopt n ts) = n :: preorderAll ts := by
  rw [adopt, preorderAll, preorder, List.cons_append, ← preorderAll_append,
    List.take_append_drop]

theorem fitsAll_adopt (hts : FitsAll ts) (hn : n.arity ≤ ts.length) : FitsAll (adopt n ts) := by
  rw [fitsAll_iff_forall] at hts
  rw [adopt, FitsAll, Fits, fitsAll_iff_forall, fitsAll_iff_forall, List.length_take_of_le hn]
  exact ⟨⟨rfl, fun t ht => hts t (List.mem_of_mem_take ht)⟩,
    fun t ht => hts t (List.mem_of_mem_drop ht)⟩

theorem length_adopt (hn : n.arity ≤ ts.length) :
    (adopt n ts).length + n.arity = ts.length + 1 := by
  rw [adopt, List.length_cons, List.length_drop]
  omega

end Tree

namespace Preorder

open SymbolicRegression.Tree

/-- A row of one tree lists that tree. -/
theorem exists_tree_of_row {ts : List Tree} (hts : FitsAll ts) (hlength : ts.length = 1) :
    ∃ t : Tree, t.Fits ∧ t.preorder = preorderAll ts := by
  obtain ⟨t, rfl⟩ := List.length_eq_one_iff.mp hlength
  exact ⟨t, hts.1, by rw [preorderAll, preorderAll, List.append_nil]⟩

/-! ## From the left -/

theorem exists_row_of_fills :
    ∀ {nodes : List Node} {places : Nat}, fills places nodes = true →
      ∃ ts, FitsAll ts ∧ ts.length = places ∧ preorderAll ts = nodes
  | [], 0, _ => ⟨[], trivial, rfl, by rw [preorderAll]⟩
  | n :: nodes, places + 1, h => by
      rw [fills] at h
      obtain ⟨ts, hts, hlength, rfl⟩ := exists_row_of_fills h
      have hn : n.arity ≤ ts.length := by omega
      have hadopted := length_adopt hn
      exact ⟨adopt n ts, fitsAll_adopt hts hn, by omega, preorderAll_adopt⟩

/-- What fills one place is the listing of a tree, and nothing else does. -/
theorem isValid_iff {nodes : List Node} :
    isValid nodes = true ↔ ∃ t : Tree, t.Fits ∧ t.preorder = nodes := by
  constructor
  · intro h
    obtain ⟨ts, hts, hlength, rfl⟩ := exists_row_of_fills h
    exact exists_tree_of_row hts hlength
  · rintro ⟨t, ht, rfl⟩
    exact isValid_preorder ht

/-! ## From the right -/

section Fold

variable {α : Type} {leaf : Node → α} {branch : Node → List α → α}

/-- A node takes the values of its children from the stack and leaves one of its own. -/
theorem length_of_push {n : Node} {stack stack' : List α}
    (h : push leaf branch n stack = some stack') :
    n.arity ≤ stack.length ∧ stack'.length + n.arity = stack.length + 1 := by
  rw [push] at h
  split at h
  · next hzero =>
      cases h
      rw [List.length_cons]
      omega
  · split at h
    · cases h
    · next hle =>
        cases h
        rw [List.length_cons, List.length_drop]
        omega

theorem exists_row_of_reduce :
    ∀ {nodes : List Node} {stack : List α}, reduce leaf branch nodes = some stack →
      ∃ ts, FitsAll ts ∧ ts.length = stack.length ∧ preorderAll ts = nodes
  | [], stack, h => by
      cases h
      exact ⟨[], trivial, rfl, by rw [preorderAll]⟩
  | n :: nodes, stack, h => by
      rw [reduce_cons] at h
      obtain ⟨below, hbelow, hpush⟩ := Option.bind_eq_some_iff.mp h
      obtain ⟨ts, hts, hlength, rfl⟩ := exists_row_of_reduce hbelow
      obtain ⟨henough, hpushed⟩ := length_of_push hpush
      have hn : n.arity ≤ ts.length := by omega
      have hadopted := length_adopt hn
      exact ⟨adopt n ts, fitsAll_adopt hts hn, by omega, preorderAll_adopt⟩

/-- Whatever is computed by it, the fold has a value on listings of trees and on nothing else. -/
theorem isSome_fold?_iff {nodes : List Node} :
    (fold? leaf branch nodes).isSome = true ↔ ∃ t : Tree, t.Fits ∧ t.preorder = nodes := by
  constructor
  · intro h
    rw [fold?] at h
    split at h
    · next value hreduce =>
        obtain ⟨ts, hts, hlength, rfl⟩ := exists_row_of_reduce hreduce
        exact exists_tree_of_row hts hlength
    · cases h
  · rintro ⟨t, ht, rfl⟩
    rw [fold?_preorder ht]
    rfl

end Fold

/-! ## All readers -/

/-- An individual is told that its nodes list no tree exactly when they do not, since no text
brings about that error. -/
theorem compile_eq_invalidPreorder_iff {i : Individual} {registry : Registry} :
    i.compile registry = .error .invalidPreorder ↔ isValid i.nodes = false := by
  rw [Individual.compile]
  split
  · next hvalid =>
      rw [hvalid]
      refine ⟨fun h => ?_, fun h => by cases h⟩
      rcases Program.error_of_compile h with ⟨e, he⟩ | hunresolved
      · cases he
      · exact hunresolved.elim
  · next hinvalid => exact ⟨fun _ => Bool.eq_false_iff.mpr hinvalid, fun _ => rfl⟩

/-- A sequence of nodes is valid exactly when it lists a tree, exactly when it has a text, exactly
when a fold of it has a value, whatever the fold computes, and exactly when an individual with these
nodes is not told that they list no tree. -/
theorem readers_agree (nodes : List Node) :
    (isValid nodes = true ↔ ∃ t : Tree, t.Fits ∧ t.preorder = nodes) ∧
      (isValid nodes = true ↔ (text? nodes).isSome = true) ∧
      (∀ {α : Type} (leaf : Node → α) (branch : Node → List α → α),
        isValid nodes = true ↔ (fold? leaf branch nodes).isSome = true) ∧
      ∀ (parameters : Parameters) (registry : Registry),
        Individual.compile ⟨nodes, parameters⟩ registry = .error .invalidPreorder ↔
          isValid nodes = false := by
  refine ⟨isValid_iff, ?_, fun leaf branch => ?_,
    fun parameters registry => compile_eq_invalidPreorder_iff⟩
  · rw [text?_eq_fold?, isSome_fold?_iff, isValid_iff]
  · rw [isSome_fold?_iff, isValid_iff]

/-! ## Texts that are read back -/

theorem text?_eq_none {nodes : List Node} (h : isValid nodes = false) : text? nodes = none := by
  rw [text?_eq_fold?, ← Option.not_isSome_iff_eq_none, isSome_fold?_iff, ← isValid_iff, h]
  exact Bool.false_ne_true

theorem parse_placeholder {nodes : List Node} (h : isValid nodes = false) :
    parse (text nodes) = .error (.invalidCharacter "<" 0) := by
  have hstart : ∃ rest, (text nodes).toList = '<' :: rest := by
    rw [text, text?_eq_none h, Option.getD_none]
    exact ⟨_, by rw [String.toList_append, String.toList_append]; rfl⟩
  obtain ⟨rest, hrest⟩ := hstart
  rw [parse, tokenize, hrest, Lexer.tokensFrom_eq_error rfl rfl]

/-- A valid sequence whose nodes are written with names lists exactly one tree, and its text is read
as the expression with the shape of that tree: a call for each operator, with the arguments in their
order, and a name for each terminal. The text of any other sequence is refused at its first
character. -/
theorem parse_text_roundtrip (nodes : List Node) :
    (isValid nodes = true → (∀ n ∈ nodes, Lexer.isName n.spelling = true) →
        ∃ t : Tree, (∀ u : Tree, u.Fits ∧ u.preorder = nodes ↔ u = t) ∧
          parse (text nodes) = .ok t.expr) ∧
      (isValid nodes = false → parse (text nodes) = .error (.invalidCharacter "<" 0)) := by
  refine ⟨fun hvalid hnames => ?_, parse_placeholder⟩
  obtain ⟨t, hfits, rfl⟩ := isValid_iff.mp hvalid
  refine ⟨t, fun u => ⟨?_, ?_⟩, parse_text hfits hnames⟩
  · rintro ⟨hu, heq⟩
    exact preorder_injective hu hfits heq
  · rintro rfl
    exact ⟨hfits, rfl⟩

/-- An operator with three arguments, one without any, and two terminals in quotation marks. -/
def quotedPick : List Node :=
  [.operator ⟨"pick", [.any, .var, .const], .var, .unknown, fun values => values.headD 0⟩,
    .operator ⟨"unit", [], .any, .unknown, fun _ => 1⟩, .terminal (Terminal.var "'x1'"),
    .terminal (Terminal.const "\"c2\"")]

theorem parse_text_roundtrip_quotedPick :
    text quotedPick = "pick(unit(), x1, c2)" ∧
      parse (text quotedPick) =
        .ok (.call "pick" [.call "unit" [], .name "x1", .name "c2"]) ∧
      parse (text quotedPick.tail) = .error (.invalidCharacter "<" 0) := by
  have htree : Fits (node quotedPick[0] [node quotedPick[1] [], node quotedPick[2] [],
      node quotedPick[3] []]) :=
    ⟨rfl, ⟨rfl, trivial⟩, ⟨rfl, trivial⟩, ⟨rfl, trivial⟩, trivial⟩
  obtain ⟨t, hunique, hparse⟩ := (parse_text_roundtrip quotedPick).1 (by decide) (by decide)
  obtain rfl := (hunique _).mp ⟨htree, rfl⟩
  exact ⟨by decide, hparse, (parse_text_roundtrip quotedPick.tail).2 (by decide)⟩

/-! ## Listings and trees correspond -/

/-- The listing of a tree whose nodes have as many children as their arities ask for is valid, and a
valid sequence is the listing of exactly one such tree. The fold of the listing is the recursion over
the tree: a node without children is a leaf, and the value of any other node is combined with the
values of its children from left to right. -/
theorem lists_one_tree :
    (∀ t : Tree, t.Fits → isValid t.preorder = true) ∧
      (∀ nodes : List Node, isValid nodes = true → ∃! t : Tree, t.Fits ∧ t.preorder = nodes) ∧
      ∀ {α : Type} (leaf branch : Node → α) (combine : α → List α → α),
        ∃ value : Tree → α,
          (∀ (n : Node) (ts : List Tree), value (node n ts) =
            if n.arity = 0 then leaf n else combine (branch n) (ts.map value)) ∧
          ∀ t : Tree, t.Fits →
            fold? leaf (fun n values => combine (branch n) values) t.preorder =
              some (value t) := by
  refine ⟨fun t => isValid_preorder, fun nodes hvalid => ?_, fun {α} leaf branch combine => ?_⟩
  · obtain ⟨t, hfits, hlisting⟩ := isValid_iff.mp hvalid
    refine ⟨t, ⟨hfits, hlisting⟩, fun u hu => ?_⟩
    exact preorder_injective hu.1 hfits (hu.2.trans hlisting.symm)
  · refine ⟨fold leaf fun n values => combine (branch n) values, fun n ts => ?_,
      fun t => fold?_preorder⟩
    rw [fold, foldAll_eq_map]

/-- The tree that the operator with three arguments and its arguments make. -/
def quotedPickTree : Tree :=
  node quotedPick[0] [node quotedPick[1] [], node quotedPick[2] [], node quotedPick[3] []]

/-- Folded with names as values, the operator without arguments is a leaf. -/
theorem lists_one_tree_quotedPick :
    quotedPickTree.Fits ∧ isValid quotedPickTree.preorder = true ∧ isValid quotedPick = true ∧
      (∃! t : Tree, t.Fits ∧ t.preorder = quotedPick) ∧
      fold? Node.name (fun n values => callText n.name values) quotedPick =
        some "pick(unit, 'x1', \"c2\")" := by
  have hfits : quotedPickTree.Fits :=
    ⟨rfl, ⟨rfl, trivial⟩, ⟨rfl, trivial⟩, ⟨rfl, trivial⟩, trivial⟩
  have hvalid : isValid quotedPick = true := by decide
  obtain ⟨value, hvalue, hfold⟩ := lists_one_tree.2.2 Node.name Node.name callText
  have hcall : value quotedPickTree = "pick(unit, 'x1', \"c2\")" := by
    simp only [quotedPickTree, hvalue, List.map_cons, List.map_nil]
    rfl
  exact ⟨hfits, lists_one_tree.1 quotedPickTree hfits, hvalid, lists_one_tree.2.1 quotedPick hvalid,
    hcall ▸ hfold quotedPickTree hfits⟩

end Preorder

end SymbolicRegression
