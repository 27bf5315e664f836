import SymbolicRegression.Expr.Grammar
import SymbolicRegression.Proofs.Parsing.Steps
import SymbolicRegression.Proofs.Results

/-!
# Whatever is read has a derivation

The parser never names a layer: it only compares binding powers. `Derives` names the layer that a
least binding power stands for, and `Left` what is known about the operand on the left while the
parser goes on behind it. The operand starts out as an atom or as a factor with a sign, and each
operation that is taken turns it into a power, a product or a sum. It is never needed in a tighter
layer again, because the operation at the head of the remaining tokens is known to bind too weakly:
the right operand was read until just that was the case.
-/

namespace SymbolicRegression

namespace Grammar

/-! ## Longer derivations -/

theorem SumTail.exists_snoc (sign : Sign) (product : ProductTree) : ∀ s : SumTail,
    ∃ s' : SumTail, s'.kinds = s.kinds ++ sign.kind :: product.kinds ∧
      ∀ left, s'.exprFrom left = .binary sign.op (s.exprFrom left) product.expr
  | .done => by
      refine ⟨.more sign product .done, ?_, fun left => ?_⟩
      · simp [SumTail.kinds]
      · simp [SumTail.exprFrom]
  | .more sign' product' others => by
      obtain ⟨s', hkinds, hexpr⟩ := SumTail.exists_snoc sign product others
      refine ⟨.more sign' product' s', ?_, fun left => ?_⟩
      · simp [SumTail.kinds, hkinds]
      · simp [SumTail.exprFrom, hexpr]

theorem ProductTail.exists_snoc (scaling : Scaling) (factor : SignedTree) : ∀ p : ProductTail,
    ∃ p' : ProductTail, p'.kinds = p.kinds ++ scaling.kind :: factor.kinds ∧
      ∀ left, p'.exprFrom left = .binary scaling.op (p.exprFrom left) factor.expr
  | .done => by
      refine ⟨.more scaling factor .done, ?_, fun left => ?_⟩
      · simp [ProductTail.kinds]
      · simp [ProductTail.exprFrom]
  | .more scaling' factor' others => by
      obtain ⟨p', hkinds, hexpr⟩ := ProductTail.exists_snoc scaling factor others
      refine ⟨.more scaling' factor' p', ?_, fun left => ?_⟩
      · simp [ProductTail.kinds, hkinds]
      · simp [ProductTail.exprFrom, hexpr]

/-- A sum goes on with one more product. -/
theorem SumTree.exists_snoc (s : SumTree) (sign : Sign) (product : ProductTree) :
    ∃ s' : SumTree, s'.kinds = s.kinds ++ sign.kind :: product.kinds ∧
      s'.expr = .binary sign.op s.expr product.expr := by
  cases s with
  | mk first others =>
      obtain ⟨others', hkinds, hexpr⟩ := others.exists_snoc sign product
      refine ⟨.mk first others', ?_, ?_⟩
      · rw [SumTree.kinds, SumTree.kinds, hkinds, List.append_assoc]
      · rw [SumTree.expr, SumTree.expr, hexpr]

/-- A product goes on with one more factor. -/
theorem ProductTree.exists_snoc (p : ProductTree) (scaling : Scaling) (factor : SignedTree) :
    ∃ p' : ProductTree, p'.kinds = p.kinds ++ scaling.kind :: factor.kinds ∧
      p'.expr = .binary scaling.op p.expr factor.expr := by
  cases p with
  | mk first others =>
      obtain ⟨others', hkinds, hexpr⟩ := others.exists_snoc scaling factor
      refine ⟨.mk first others', ?_, ?_⟩
      · rw [ProductTree.kinds, ProductTree.kinds, hkinds, List.append_assoc]
      · rw [ProductTree.expr, ProductTree.expr, hexpr]

/-! ## Tighter layers in looser ones -/

section Layers

variable {kinds : List TokenKind} {e : Expr Float}

theorem exists_factor_of_atom (h : ∃ a : AtomTree, a.kinds = kinds ∧ a.expr = e) :
    ∃ f : SignedTree, f.kinds = kinds ∧ f.expr = e := by
  obtain ⟨a, rfl, rfl⟩ := h
  refine ⟨.power (.bare a), ?_, ?_⟩
  · rw [SignedTree.kinds, PowerTree.kinds]
  · rw [SignedTree.expr, PowerTree.expr]

theorem exists_product_of_factor (h : ∃ f : SignedTree, f.kinds = kinds ∧ f.expr = e) :
    ∃ p : ProductTree, p.kinds = kinds ∧ p.expr = e := by
  obtain ⟨f, rfl, rfl⟩ := h
  refine ⟨.mk f .done, ?_, ?_⟩
  · rw [ProductTree.kinds, ProductTail.kinds, List.append_nil]
  · rw [ProductTree.expr, ProductTail.exprFrom]

theorem exists_sum_of_product (h : ∃ p : ProductTree, p.kinds = kinds ∧ p.expr = e) :
    ∃ s : SumTree, s.kinds = kinds ∧ s.expr = e := by
  obtain ⟨p, rfl, rfl⟩ := h
  refine ⟨.mk p .done, ?_, ?_⟩
  · rw [SumTree.kinds, SumTail.kinds, List.append_nil]
  · rw [SumTree.expr, SumTail.exprFrom]

end Layers

end Grammar

namespace Parser

open Grammar

variable {stop : Token}

/-- The tokens derive the expression in the loosest layer all of whose operations bind at least as
strongly as `least`. -/
def Derives (least : Nat) (kinds : List TokenKind) (e : Expr Float) : Prop :=
  if least ≤ 1 then ∃ s : SumTree, s.kinds = kinds ∧ s.expr = e
  else if least ≤ 3 then ∃ p : ProductTree, p.kinds = kinds ∧ p.expr = e
  else ∃ f : SignedTree, f.kinds = kinds ∧ f.expr = e

/-- What is known of a left operand, its tokens and the tokens behind it, while operations are taken
that bind at least as strongly as `least`. -/
inductive Left (least : Nat) : List TokenKind → Expr Float → List Token → Prop where
  | atom (a : AtomTree) {rest : List Token} : Left least a.kinds a.expr rest
  | factor (f : SignedTree) {rest : List Token} : Below 8 rest →
      Left least f.kinds f.expr rest
  | product (p : ProductTree) {rest : List Token} : least ≤ 3 → Below 8 rest →
      Left least p.kinds p.expr rest
  | sum (s : SumTree) {rest : List Token} : least ≤ 1 → Below 3 rest →
      Left least s.kinds s.expr rest

namespace Left

variable {least : Nat} {kinds : List TokenKind} {e : Expr Float}

/-- Only an atom is followed by a power sign. -/
theorem exists_atom {t : Token} {rest : List Token} (h : Left least kinds e (t :: rest))
    (hop : operation? t.kind = some .pow) : ∃ a : AtomTree, a.kinds = kinds ∧ a.expr = e := by
  cases h with
  | atom a => exact ⟨a, rfl, rfl⟩
  | factor _ hbelow => exact absurd (below_cons.mp hbelow _ hop) (by decide)
  | product _ _ hbelow => exact absurd (below_cons.mp hbelow _ hop) (by decide)
  | sum _ _ hbelow => exact absurd (below_cons.mp hbelow _ hop) (by decide)

/-- Only in the loosest layer is the operand a sum of several products. -/
theorem exists_product_of_lt {rest : List Token} (h : Left least kinds e rest) (hlt : 1 < least) :
    ∃ p : ProductTree, p.kinds = kinds ∧ p.expr = e := by
  cases h with
  | atom a => exact exists_product_of_factor (exists_factor_of_atom ⟨a, rfl, rfl⟩)
  | factor f _ => exact exists_product_of_factor ⟨f, rfl, rfl⟩
  | product p _ _ => exact ⟨p, rfl, rfl⟩
  | sum _ hle _ => exact absurd hle (Nat.not_le.mpr hlt)

/-- A sum is not followed by a scaling. -/
theorem exists_product {t : Token} {rest : List Token} {scaling : Scaling}
    (h : Left least kinds e (t :: rest)) (hop : operation? t.kind = some scaling.op) :
    ∃ p : ProductTree, p.kinds = kinds ∧ p.expr = e := by
  cases h with
  | atom a => exact exists_product_of_factor (exists_factor_of_atom ⟨a, rfl, rfl⟩)
  | factor f _ => exact exists_product_of_factor ⟨f, rfl, rfl⟩
  | product p _ _ => exact ⟨p, rfl, rfl⟩
  | sum _ _ hbelow =>
      exact absurd (below_cons.mp hbelow _ hop) (by cases scaling <;> decide)

theorem exists_sum {rest : List Token} (h : Left least kinds e rest) :
    ∃ s : SumTree, s.kinds = kinds ∧ s.expr = e := by
  cases h with
  | atom a =>
      exact exists_sum_of_product
        (exists_product_of_factor (exists_factor_of_atom ⟨a, rfl, rfl⟩))
  | factor f _ => exact exists_sum_of_product (exists_product_of_factor ⟨f, rfl, rfl⟩)
  | product p _ _ => exact exists_sum_of_product ⟨p, rfl, rfl⟩
  | sum s _ _ => exact ⟨s, rfl, rfl⟩

/-- Where no further operation is taken, the operand is the whole expression. -/
theorem derives {rest : List Token} (h : Left least kinds e rest) : Derives least kinds e := by
  rw [Derives]
  split
  · exact h.exists_sum
  · next hsum =>
      split
      · exact h.exists_product_of_lt (Nat.not_le.mp hsum)
      · next hproduct =>
          cases h with
          | atom a => exact exists_factor_of_atom ⟨a, rfl, rfl⟩
          | factor f _ => exact ⟨f, rfl, rfl⟩
          | product _ hle _ => exact absurd hle hproduct
          | sum _ hle _ => exact absurd hle hsum

end Left

/-! ## Reading -/

theorem exists_of_operation? {kind : TokenKind} {op : BinaryOp} (h : operation? kind = some op) :
    (∃ s : Sign, kind = s.kind ∧ op = s.op) ∨ (∃ s : Scaling, kind = s.kind ∧ op = s.op) ∨
      ∃ r : Raising, kind = r.kind ∧ op = .pow := by
  cases kind <;> cases h
  case plus => exact .inl ⟨.plus, rfl, rfl⟩
  case minus => exact .inl ⟨.minus, rfl, rfl⟩
  case star => exact .inr (.inl ⟨.star, rfl, rfl⟩)
  case slash => exact .inr (.inl ⟨.slash, rfl, rfl⟩)
  case caret => exact .inr (.inr ⟨.caret, rfl, rfl⟩)
  case doubleStar => exact .inr (.inr ⟨.doubleStar, rfl, rfl⟩)

/-- One operation: a left operand, an operation that binds strongly enough, and a right operand that
was read with the right power of the operation make up a left operand again. -/
theorem Left.step {least : Nat} {kinds kinds' : List TokenKind} {left right : Expr Float}
    {t : Token} {rest rest' : List Token} {op : BinaryOp}
    (h : Left least kinds left (t :: rest)) (hop : operation? t.kind = some op)
    (hle : least ≤ op.bindingPower.1) (hright : Derives op.bindingPower.2 kinds' right)
    (hbelow : Below op.bindingPower.2 rest') :
    Left least (kinds ++ t.kind :: kinds') (.binary op left right) rest' := by
  rcases exists_of_operation? hop with ⟨sign, hkind, rfl⟩ | ⟨scaling, hkind, rfl⟩ |
    ⟨raising, hkind, rfl⟩
  · have hpower : sign.op.bindingPower = (1, 2) := by cases sign <;> rfl
    rw [hpower] at hle hright hbelow
    obtain ⟨s, rfl, rfl⟩ := h.exists_sum
    obtain ⟨p, rfl, rfl⟩ := hright
    obtain ⟨s', hkinds, hexpr⟩ := s.exists_snoc sign p
    rw [hkind, ← hkinds, ← hexpr]
    exact .sum s' hle (hbelow.mono (by decide))
  · have hpower : scaling.op.bindingPower = (3, 4) := by cases scaling <;> rfl
    rw [hpower] at hle hright hbelow
    obtain ⟨p, rfl, rfl⟩ := h.exists_product hop
    obtain ⟨f, rfl, rfl⟩ := hright
    obtain ⟨p', hkinds, hexpr⟩ := p.exists_snoc scaling f
    rw [hkind, ← hkinds, ← hexpr]
    exact .product p' hle (hbelow.mono (by decide))
  · obtain ⟨a, rfl, rfl⟩ := h.exists_atom hop
    obtain ⟨f, rfl, rfl⟩ := hright
    have hkinds : (SignedTree.power (.raised a raising f)).kinds =
        a.kinds ++ raising.kind :: f.kinds := by rw [SignedTree.kinds, PowerTree.kinds]
    have hexpr : (SignedTree.power (.raised a raising f)).expr =
        .binary .pow a.expr f.expr := by rw [SignedTree.expr, PowerTree.expr]
    rw [hkind, ← hkinds, ← hexpr]
    exact .factor _ (hbelow.mono (by decide))

theorem Left.of_atom {least : Nat} {kinds : List TokenKind} {e : Expr Float} {rest : List Token}
    (a : AtomTree) (hkinds : a.kinds = kinds) (hexpr : a.expr = e) : Left least kinds e rest := by
  subst hkinds hexpr
  exact .atom a

/-- A sign in front of a factor. -/
theorem Left.of_sign {least : Nat} {kinds : List TokenKind} {e : Expr Float} {rest : List Token}
    (sign : Sign) (h : Derives signPower kinds e) (hbelow : Below signPower rest) :
    Left least (sign.kind :: kinds) (sign.apply e) rest := by
  obtain ⟨f, rfl, rfl⟩ := h
  have hkinds : (SignedTree.sign sign f).kinds = sign.kind :: f.kinds := by rw [SignedTree.kinds]
  have hexpr : (SignedTree.sign sign f).expr = sign.apply f.expr := by rw [SignedTree.expr]
  rw [← hkinds, ← hexpr]
  exact .factor _ (hbelow.mono (by decide))

mutual

theorem derives_of_readExpression {least : Nat} {tokens rest : List Token} {e : Expr Float}
    (h : readExpression stop least tokens = .ok (e, rest)) :
    ∃ used, tokens = used ++ rest ∧ Derives least (used.map Token.kind) e ∧
      Below least rest := by
  rw [readExpression_eq] at h
  obtain ⟨⟨left, behind⟩, hoperand, hextension⟩ := bind_eq_ok h
  obtain ⟨used, rfl, hne, hleft⟩ := left_of_readOperand hoperand
  have hlen : behind.length < (used ++ behind).length := by
    have := List.length_pos_iff.mpr hne
    rw [List.length_append]
    omega
  obtain ⟨used', rfl, hderives, hbelow⟩ := derives_of_readExtension hextension (hleft least)
  refine ⟨used ++ used', (List.append_assoc _ _ _).symm, ?_, hbelow⟩
  rw [List.map_append]
  exact hderives
  termination_by (tokens.length, 2)

/-- Going on behind a left operand. -/
theorem derives_of_readExtension {least : Nat} {left : Expr Float} {tokens rest : List Token}
    {e : Expr Float} {kinds : List TokenKind}
    (h : readExtension stop least left tokens = .ok (e, rest)) (hleft : Left least kinds left tokens) :
    ∃ used, tokens = used ++ rest ∧ Derives least (kinds ++ used.map Token.kind) e ∧
      Below least rest := by
  by_cases hbelow : Below least tokens
  · rw [readExtension_of_below hbelow] at h
    cases h
    refine ⟨[], rfl, ?_, hbelow⟩
    rw [List.map_nil, List.append_nil]
    exact hleft.derives
  · cases tokens with
    | nil => exact absurd below_nil hbelow
    | cons t tokens =>
        obtain ⟨op, hop, hle⟩ : ∃ op, operation? t.kind = some op ∧ least ≤ op.bindingPower.1 := by
          simpa [below_cons] using hbelow
        rw [readExtension_cons hop hle] at h
        obtain ⟨⟨right, behind⟩, hexpression, hextension⟩ := bind_eq_ok h
        obtain ⟨used, rfl, hderives, hbelow'⟩ := derives_of_readExpression hexpression
        have hlen : behind.length < (t :: (used ++ behind)).length := by
          rw [List.length_cons, List.length_append]
          omega
        obtain ⟨used', rfl, hderives', hrest⟩ :=
          derives_of_readExtension hextension (hleft.step hop hle hderives hbelow')
        refine ⟨t :: (used ++ used'), by simp, ?_, hrest⟩
        simpa using hderives'
  termination_by (tokens.length, 0)

/-- An operand may stand on the left of any operation that is allowed to follow it. -/
theorem left_of_readOperand {tokens rest : List Token} {e : Expr Float}
    (h : readOperand stop tokens = .ok (e, rest)) :
    ∃ used, tokens = used ++ rest ∧ used ≠ [] ∧
      ∀ least, Left least (used.map Token.kind) e rest := by
  cases tokens with
  | nil => rw [readOperand_nil] at h; cases h
  | cons t tokens =>
      cases hk : t.kind with
      | number value =>
          rw [readOperand_number hk] at h
          cases h
          refine ⟨[t], rfl, List.cons_ne_nil _ _, fun least => ?_⟩
          exact .of_atom (.number value) (by simp [AtomTree.kinds, hk]) (by rw [AtomTree.expr])
      | minus =>
          rw [readOperand_minus hk] at h
          obtain ⟨⟨e', behind⟩, hexpression, heq⟩ := bind_eq_ok h
          cases heq
          obtain ⟨used, rfl, hderives, hbelow⟩ := derives_of_readExpression hexpression
          refine ⟨t :: used, rfl, List.cons_ne_nil _ _, fun least => ?_⟩
          rw [List.map_cons, hk]
          exact .of_sign .minus hderives hbelow
      | plus =>
          rw [readOperand_plus hk] at h
          obtain ⟨used, rfl, hderives, hbelow⟩ := derives_of_readExpression h
          refine ⟨t :: used, rfl, List.cons_ne_nil _ _, fun least => ?_⟩
          rw [List.map_cons, hk]
          exact .of_sign .plus hderives hbelow
      | leftParen =>
          rw [readOperand_parens hk] at h
          obtain ⟨⟨e', behind⟩, hexpression, hclosing⟩ := bind_eq_ok h
          obtain ⟨rest', hclosing, heq⟩ := bind_eq_ok hclosing
          cases heq
          obtain ⟨close, rfl, hclose⟩ := readClosing_eq_ok hclosing
          obtain ⟨used, rfl, ⟨s, hkinds, rfl⟩, -⟩ := derives_of_readExpression hexpression
          refine ⟨t :: (used ++ [close]), by simp, List.cons_ne_nil _ _, fun least => ?_⟩
          exact .of_atom (.parens s) (by simp [AtomTree.kinds, hkinds, hk, hclose])
            (by rw [AtomTree.expr])
      | name name =>
          by_cases hcall : ∃ u tokens', tokens = u :: tokens' ∧ u.kind = .leftParen
          · obtain ⟨u, tokens', rfl, hu⟩ := hcall
            rw [readOperand_call hk hu] at h
            obtain ⟨⟨es, behind⟩, harguments, heq⟩ := bind_eq_ok h
            cases heq
            obtain ⟨used, rfl, a, hkinds, hexpr⟩ := atom_of_readArguments name harguments
            refine ⟨t :: u :: used, rfl, List.cons_ne_nil _ _, fun least => ?_⟩
            exact .of_atom a (by simp [hkinds, hk, hu]) hexpr
          · have hname : ∀ u tokens', tokens = u :: tokens' → u.kind ≠ .leftParen :=
              fun u tokens' heq hu => hcall ⟨u, tokens', heq, hu⟩
            rw [readOperand_name hk hname] at h
            cases h
            refine ⟨[t], rfl, List.cons_ne_nil _ _, fun least => ?_⟩
            exact .of_atom (.name name) (by simp [AtomTree.kinds, hk]) (by rw [AtomTree.expr])
      | rightParen | comma | doubleStar | star | slash | caret | endOfInput =>
          rw [readOperand_other (by rw [hk]; rfl)] at h
          cases h
  termination_by (tokens.length, 1)

/-- A name with the arguments behind it is an atom. -/
theorem atom_of_readArguments (name : String) {tokens rest : List Token} {es : List (Expr Float)}
    (h : readArguments stop tokens = .ok (es, rest)) :
    ∃ used, tokens = used ++ rest ∧ ∃ a : AtomTree,
      a.kinds = .name name :: .leftParen :: used.map Token.kind ∧ a.expr = .call name es := by
  by_cases hclose : ∃ t tokens', tokens = t :: tokens' ∧ t.kind = .rightParen
  · obtain ⟨t, tokens', rfl, ht⟩ := hclose
    rw [readArguments_paren ht] at h
    cases h
    refine ⟨[t], rfl, .emptyCall name, ?_, by rw [AtomTree.expr]⟩
    simp [AtomTree.kinds, ht]
  · have hrow : ∀ t tokens', tokens = t :: tokens' → t.kind ≠ .rightParen :=
      fun t tokens' heq ht => hclose ⟨t, tokens', heq, ht⟩
    rw [readArguments_row hrow] at h
    obtain ⟨used, close, rfl, hclose, row, hkinds, rfl⟩ := row_of_readRow h
    refine ⟨used ++ [close], by simp, .call name row, ?_, by rw [AtomTree.expr]⟩
    simp [AtomTree.kinds, hkinds, hclose]
  termination_by (tokens.length, 4)

theorem row_of_readRow {tokens rest : List Token} {es : List (Expr Float)}
    (h : readRow stop tokens = .ok (es, rest)) :
    ∃ used close, tokens = used ++ close :: rest ∧ close.kind = .rightParen ∧
      ∃ row : RowTree, row.kinds = used.map Token.kind ∧ row.exprs = es := by
  cases hexpression : readExpression stop 0 tokens with
  | error e => rw [readRow_error hexpression] at h; cases h
  | ok r =>
      obtain ⟨first, behind⟩ := r
      obtain ⟨used, rfl, ⟨s, hkinds, rfl⟩, -⟩ := derives_of_readExpression hexpression
      by_cases hcomma : ∃ t behind', behind = t :: behind' ∧ t.kind = .comma
      · obtain ⟨t, behind, rfl, ht⟩ := hcomma
        rw [readRow_comma hexpression ht] at h
        obtain ⟨⟨others, rest'⟩, hrow, heq⟩ := bind_eq_ok h
        cases heq
        have hlen : behind.length < (used ++ t :: behind).length := by
          rw [List.length_append, List.length_cons]
          omega
        obtain ⟨used', close, rfl, hclose, row, hrowKinds, rfl⟩ := row_of_readRow hrow
        refine ⟨used ++ t :: used', close, by simp, hclose, .more s row, ?_, ?_⟩
        · simp [RowTree.kinds, hkinds, hrowKinds, ht]
        · rw [RowTree.exprs]
      · have hlast : ∀ t behind', behind = t :: behind' → t.kind ≠ .comma :=
          fun t behind' heq ht => hcomma ⟨t, behind', heq, ht⟩
        rw [readRow_last hexpression hlast] at h
        obtain ⟨rest', hclosing, heq⟩ := bind_eq_ok h
        cases heq
        obtain ⟨close, rfl, hclose⟩ := readClosing_eq_ok hclosing
        refine ⟨used, close, rfl, hclose, .last s, ?_, ?_⟩
        · rw [RowTree.kinds, hkinds]
        · rw [RowTree.exprs]
  termination_by (tokens.length, 3)

end

end Parser

end SymbolicRegression
