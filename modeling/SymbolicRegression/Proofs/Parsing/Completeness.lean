import SymbolicRegression.Expr.Grammar
import SymbolicRegression.Proofs.Parsing.Steps

/-!
# Every derivation is found

Reading the tokens of a derivation, with any others behind them, comes to the same as going on
behind its expression. For this to hold the tokens behind must not belong to the derivation as well:
a factor may not be followed by a power sign, a product that is an operand of a sum not by another
factor, and a name not by an opening parenthesis. The least binding power only has to be small
enough to reach the operations of the layer, so one statement for each layer serves every place from
which the layer is read: a factor, for instance, is read with the least powers 0, 2, 4, 5 and 7.
-/

namespace SymbolicRegression

namespace Parser

open Grammar

variable {stop : Token}

/-- The next token does not make a call of a name. -/
def NoCall (tokens : List Token) : Prop :=
  ∀ t rest, tokens = t :: rest → t.kind ≠ .leftParen

/-- Nothing that follows belongs to an operand whose operations bind at least as strongly as
`least`. -/
def Ends (least : Nat) (tokens : List Token) : Prop :=
  Below least tokens ∧ NoCall tokens

theorem Ends.mono {least least' : Nat} {tokens : List Token} (h : Ends least tokens)
    (hle : least ≤ least') : Ends least' tokens :=
  ⟨h.1.mono hle, h.2⟩

theorem ends_nil {least : Nat} : Ends least [] :=
  ⟨below_nil, by intro t rest h; cases h⟩

theorem ends_cons {least : Nat} {t : Token} {rest : List Token} {kind : TokenKind}
    (ht : t.kind = kind) (hop : ∀ op, operation? kind = some op → op.bindingPower.1 < least)
    (hkind : kind ≠ .leftParen) : Ends least (t :: rest) := by
  subst ht
  refine ⟨below_cons.mpr hop, ?_⟩
  intro t' rest' h
  obtain ⟨rfl, -⟩ := List.cons.inj h
  exact hkind

theorem operation?_sign (s : Sign) : operation? s.kind = some s.op := by
  cases s <;> rfl

theorem operation?_scaling (s : Scaling) : operation? s.kind = some s.op := by
  cases s <;> rfl

theorem operation?_raising (r : Raising) : operation? r.kind = some .pow := by
  cases r <;> rfl

theorem bindingPower_sign (s : Sign) : s.op.bindingPower = (1, 2) := by
  cases s <;> rfl

theorem bindingPower_scaling (s : Scaling) : s.op.bindingPower = (3, 4) := by
  cases s <;> rfl

theorem ends_sign {t : Token} {rest : List Token} {s : Sign} (ht : t.kind = s.kind) :
    Ends 2 (t :: rest) := by
  refine ends_cons ht ?_ (by cases s <;> exact TokenKind.noConfusion)
  intro op hop
  rw [operation?_sign] at hop
  cases hop
  rw [bindingPower_sign]
  exact Nat.lt_succ_self 1

theorem ends_scaling {t : Token} {rest : List Token} {s : Scaling} (ht : t.kind = s.kind) :
    Ends 4 (t :: rest) := by
  refine ends_cons ht ?_ (by cases s <;> exact TokenKind.noConfusion)
  intro op hop
  rw [operation?_scaling] at hop
  cases hop
  rw [bindingPower_scaling]
  exact Nat.lt_succ_self 3

theorem ends_comma {least : Nat} {t : Token} {rest : List Token} (ht : t.kind = .comma) :
    Ends least (t :: rest) :=
  ends_cons ht (fun _ h => by cases h) TokenKind.noConfusion

theorem ends_rightParen {least : Nat} {t : Token} {rest : List Token}
    (ht : t.kind = .rightParen) : Ends least (t :: rest) :=
  ends_cons ht (fun _ h => by cases h) TokenKind.noConfusion

/-- Behind a product of a sum there is a sign, or the end of the sum. -/
theorem ends_sumTail (s : SumTail) {tokens rest : List Token}
    (hkinds : tokens.map Token.kind = s.kinds) (hrest : Ends 2 rest) :
    Ends 2 (tokens ++ rest) := by
  cases s with
  | done =>
      rw [SumTail.kinds, List.map_eq_nil_iff] at hkinds
      rw [hkinds]
      exact hrest
  | more sign product others =>
      rw [SumTail.kinds] at hkinds
      obtain ⟨t, ts, rfl, ht, -⟩ := List.map_eq_cons_iff.mp hkinds
      exact ends_sign ht

/-- Behind a factor of a product there is a scaling, or the end of the product. -/
theorem ends_productTail (p : ProductTail) {tokens rest : List Token}
    (hkinds : tokens.map Token.kind = p.kinds) (hrest : Ends 4 rest) :
    Ends 4 (tokens ++ rest) := by
  cases p with
  | done =>
      rw [ProductTail.kinds, List.map_eq_nil_iff] at hkinds
      rw [hkinds]
      exact hrest
  | more scaling factor others =>
      rw [ProductTail.kinds] at hkinds
      obtain ⟨t, ts, rfl, ht, -⟩ := List.map_eq_cons_iff.mp hkinds
      exact ends_scaling ht

mutual

theorem readExpression_sum : ∀ (s : SumTree) {least : Nat} {tokens rest : List Token},
    least ≤ 1 → tokens.map Token.kind = s.kinds → Ends 2 rest →
    readExpression stop least (tokens ++ rest) = readExtension stop least s.expr rest
  | .mk first others, least, tokens, rest, hle, hkinds, hrest => by
      rw [SumTree.kinds] at hkinds
      obtain ⟨ts, us, rfl, hts, hus⟩ := List.map_eq_append_iff.mp hkinds
      rw [List.append_assoc, SumTree.expr,
        readExpression_product first (by omega) hts
          ((ends_sumTail others hus hrest).mono (by omega))]
      exact readExtension_sumTail others hle hus hrest

theorem readExtension_sumTail : ∀ (s : SumTail) {least : Nat} {left : Expr Float}
    {tokens rest : List Token}, least ≤ 1 → tokens.map Token.kind = s.kinds → Ends 2 rest →
    readExtension stop least left (tokens ++ rest) =
      readExtension stop least (s.exprFrom left) rest
  | .done, least, left, tokens, rest, _, hkinds, _ => by
      rw [SumTail.kinds, List.map_eq_nil_iff] at hkinds
      rw [hkinds, SumTail.exprFrom, List.nil_append]
  | .more sign product others, least, left, tokens, rest, hle, hkinds, hrest => by
      rw [SumTail.kinds] at hkinds
      obtain ⟨t, _, rfl, ht, hkinds⟩ := List.map_eq_cons_iff.mp hkinds
      obtain ⟨ts, us, rfl, hts, hus⟩ := List.map_eq_append_iff.mp hkinds
      have hop : operation? t.kind = some sign.op := by rw [ht, operation?_sign]
      have hends : Ends 2 (us ++ rest) := ends_sumTail others hus hrest
      rw [List.cons_append, List.append_assoc,
        readExtension_cons hop (by rw [bindingPower_sign]; exact hle), bindingPower_sign,
        readExpression_product product (by omega) hts (hends.mono (by omega)),
        readExtension_of_below hends.1]
      exact readExtension_sumTail others hle hus hrest

theorem readExpression_product : ∀ (p : ProductTree) {least : Nat} {tokens rest : List Token},
    least ≤ 3 → tokens.map Token.kind = p.kinds → Ends 4 rest →
    readExpression stop least (tokens ++ rest) = readExtension stop least p.expr rest
  | .mk first others, least, tokens, rest, hle, hkinds, hrest => by
      rw [ProductTree.kinds] at hkinds
      obtain ⟨ts, us, rfl, hts, hus⟩ := List.map_eq_append_iff.mp hkinds
      rw [List.append_assoc, ProductTree.expr,
        readExpression_signed first (by omega) hts (ends_productTail others hus hrest)]
      exact readExtension_productTail others hle hus hrest

theorem readExtension_productTail : ∀ (p : ProductTail) {least : Nat} {left : Expr Float}
    {tokens rest : List Token}, least ≤ 3 → tokens.map Token.kind = p.kinds → Ends 4 rest →
    readExtension stop least left (tokens ++ rest) =
      readExtension stop least (p.exprFrom left) rest
  | .done, least, left, tokens, rest, _, hkinds, _ => by
      rw [ProductTail.kinds, List.map_eq_nil_iff] at hkinds
      rw [hkinds, ProductTail.exprFrom, List.nil_append]
  | .more scaling factor others, least, left, tokens, rest, hle, hkinds, hrest => by
      rw [ProductTail.kinds] at hkinds
      obtain ⟨t, _, rfl, ht, hkinds⟩ := List.map_eq_cons_iff.mp hkinds
      obtain ⟨ts, us, rfl, hts, hus⟩ := List.map_eq_append_iff.mp hkinds
      have hop : operation? t.kind = some scaling.op := by rw [ht, operation?_scaling]
      have hends : Ends 4 (us ++ rest) := ends_productTail others hus hrest
      rw [List.cons_append, List.append_assoc,
        readExtension_cons hop (by rw [bindingPower_scaling]; exact hle), bindingPower_scaling,
        readExpression_signed factor (by omega) hts hends, readExtension_of_below hends.1]
      exact readExtension_productTail others hle hus hrest

theorem readExpression_signed : ∀ (f : SignedTree) {least : Nat} {tokens rest : List Token},
    least ≤ 8 → tokens.map Token.kind = f.kinds → Ends 4 rest →
    readExpression stop least (tokens ++ rest) = readExtension stop least f.expr rest
  | .sign sign factor, least, tokens, rest, _, hkinds, hrest => by
      rw [SignedTree.kinds] at hkinds
      obtain ⟨t, ts, rfl, ht, hts⟩ := List.map_eq_cons_iff.mp hkinds
      have hfactor : readExpression stop signPower (ts ++ rest) = .ok (factor.expr, rest) := by
        rw [readExpression_signed factor (by decide) hts hrest,
          readExtension_of_below (hrest.1.mono (by decide))]
      rw [List.cons_append, readExpression_eq, SignedTree.expr]
      cases sign with
      | plus => rw [readOperand_plus ht, hfactor]; rfl
      | minus => rw [readOperand_minus ht, hfactor]; rfl
  | .power power, least, tokens, rest, hle, hkinds, hrest => by
      rw [SignedTree.kinds] at hkinds
      rw [SignedTree.expr]
      exact readExpression_power power hle hkinds hrest

theorem readExpression_power : ∀ (p : PowerTree) {least : Nat} {tokens rest : List Token},
    least ≤ 8 → tokens.map Token.kind = p.kinds → Ends 4 rest →
    readExpression stop least (tokens ++ rest) = readExtension stop least p.expr rest
  | .bare base, least, tokens, rest, _, hkinds, hrest => by
      rw [PowerTree.kinds] at hkinds
      rw [readExpression_eq, readOperand_atom base hkinds hrest.2, PowerTree.expr]
      rfl
  | .raised base raising exponent, least, tokens, rest, hle, hkinds, hrest => by
      rw [PowerTree.kinds] at hkinds
      obtain ⟨ts, _, rfl, hts, hkinds⟩ := List.map_eq_append_iff.mp hkinds
      obtain ⟨t, us, rfl, ht, hus⟩ := List.map_eq_cons_iff.mp hkinds
      have hop : operation? t.kind = some .pow := by rw [ht, operation?_raising]
      have hcall : NoCall (t :: us ++ rest) := by
        intro t' rest' h
        obtain ⟨rfl, -⟩ := List.cons.inj h
        rw [ht]
        cases raising <;> exact TokenKind.noConfusion
      have hexponent : readExpression stop 7 (us ++ rest) = .ok (exponent.expr, rest) := by
        rw [readExpression_signed exponent (by decide) hus hrest,
          readExtension_of_below (hrest.1.mono (by decide))]
      rw [List.append_assoc, readExpression_eq, readOperand_atom base hts hcall,
        PowerTree.expr]
      show readExtension stop least base.expr (t :: (us ++ rest)) = _
      rw [readExtension_cons hop hle, show BinaryOp.pow.bindingPower.2 = 7 from rfl, hexponent]
      rfl

theorem readOperand_atom : ∀ (a : AtomTree) {tokens rest : List Token},
    tokens.map Token.kind = a.kinds → NoCall rest →
    readOperand stop (tokens ++ rest) = .ok (a.expr, rest)
  | .number value, tokens, rest, hkinds, _ => by
      rw [AtomTree.kinds] at hkinds
      obtain ⟨t, _, rfl, ht, hnil⟩ := List.map_eq_cons_iff.mp hkinds
      rw [List.map_eq_nil_iff] at hnil
      subst hnil
      rw [List.singleton_append, readOperand_number ht, AtomTree.expr]
  | .name name, tokens, rest, hkinds, hrest => by
      rw [AtomTree.kinds] at hkinds
      obtain ⟨t, _, rfl, ht, hnil⟩ := List.map_eq_cons_iff.mp hkinds
      rw [List.map_eq_nil_iff] at hnil
      subst hnil
      rw [List.singleton_append, readOperand_name ht hrest, AtomTree.expr]
  | .emptyCall name, tokens, rest, hkinds, _ => by
      rw [AtomTree.kinds] at hkinds
      obtain ⟨t, _, rfl, ht, hkinds⟩ := List.map_eq_cons_iff.mp hkinds
      obtain ⟨u, _, rfl, hu, hkinds⟩ := List.map_eq_cons_iff.mp hkinds
      obtain ⟨v, _, rfl, hv, hnil⟩ := List.map_eq_cons_iff.mp hkinds
      rw [List.map_eq_nil_iff] at hnil
      subst hnil
      show readOperand stop (t :: u :: v :: rest) = _
      rw [readOperand_call ht hu, readArguments_paren hv, AtomTree.expr]
      rfl
  | .call name row, tokens, rest, hkinds, _ => by
      rw [AtomTree.kinds] at hkinds
      obtain ⟨t, _, rfl, ht, hkinds⟩ := List.map_eq_cons_iff.mp hkinds
      obtain ⟨u, _, rfl, hu, hkinds⟩ := List.map_eq_cons_iff.mp hkinds
      obtain ⟨ts, _, rfl, hts, hkinds⟩ := List.map_eq_append_iff.mp hkinds
      obtain ⟨v, _, rfl, hv, hnil⟩ := List.map_eq_cons_iff.mp hkinds
      rw [List.map_eq_nil_iff] at hnil
      subst hnil
      have hrow : readRow stop (ts ++ v :: rest) = .ok (row.exprs, rest) :=
        readRow_row row hts hv
      -- a row begins with an operand, so the call is not the empty one
      have hfirst : ∀ w ws, ts ++ v :: rest = w :: ws → w.kind ≠ .rightParen := by
        intro w ws hw hparen
        have herror : readExpression stop 0 (w :: ws) =
            .error (unexpected stop "an expression" (w :: ws)) := by
          rw [readExpression_eq, readOperand_other (by rw [hparen]; rfl)]
          rfl
        rw [hw, readRow_error herror] at hrow
        cases hrow
      rw [show (t :: u :: (ts ++ [v])) ++ rest = t :: u :: (ts ++ v :: rest) by simp,
        readOperand_call ht hu, readArguments_row hfirst, hrow, AtomTree.expr]
      rfl
  | .parens sum, tokens, rest, hkinds, _ => by
      rw [AtomTree.kinds] at hkinds
      obtain ⟨t, _, rfl, ht, hkinds⟩ := List.map_eq_cons_iff.mp hkinds
      obtain ⟨ts, _, rfl, hts, hkinds⟩ := List.map_eq_append_iff.mp hkinds
      obtain ⟨v, _, rfl, hv, hnil⟩ := List.map_eq_cons_iff.mp hkinds
      rw [List.map_eq_nil_iff] at hnil
      subst hnil
      have hends : Ends 0 (v :: rest) := ends_rightParen hv
      rw [show (t :: (ts ++ [v])) ++ rest = t :: (ts ++ v :: rest) by simp,
        readOperand_parens ht, readExpression_sum sum (by omega) hts (hends.mono (by omega)),
        readExtension_of_below hends.1, AtomTree.expr]
      show (readClosing stop (v :: rest)).bind _ = _
      rw [readClosing_paren hv]
      rfl

theorem readRow_row : ∀ (r : RowTree) {tokens rest : List Token} {close : Token},
    tokens.map Token.kind = r.kinds → close.kind = .rightParen →
    readRow stop (tokens ++ close :: rest) = .ok (r.exprs, rest)
  | .last sum, tokens, rest, close, hkinds, hclose => by
      rw [RowTree.kinds] at hkinds
      have hends : Ends 0 (close :: rest) := ends_rightParen hclose
      have hsum : readExpression stop 0 (tokens ++ close :: rest) =
          .ok (sum.expr, close :: rest) := by
        rw [readExpression_sum sum (by omega) hkinds (hends.mono (by omega)),
          readExtension_of_below hends.1]
      have hlast : ∀ t rest', close :: rest = t :: rest' → t.kind ≠ .comma := by
        intro t rest' h
        obtain ⟨rfl, -⟩ := List.cons.inj h
        rw [hclose]
        exact TokenKind.noConfusion
      rw [readRow_last hsum hlast, readClosing_paren hclose, RowTree.exprs]
      rfl
  | .more sum others, tokens, rest, close, hkinds, hclose => by
      rw [RowTree.kinds] at hkinds
      obtain ⟨ts, _, rfl, hts, hkinds⟩ := List.map_eq_append_iff.mp hkinds
      obtain ⟨u, us, rfl, hu, hus⟩ := List.map_eq_cons_iff.mp hkinds
      have hends : Ends 0 (u :: (us ++ close :: rest)) := ends_comma hu
      have hsum : readExpression stop 0 (ts ++ u :: (us ++ close :: rest)) =
          .ok (sum.expr, u :: (us ++ close :: rest)) := by
        rw [readExpression_sum sum (by omega) hts (hends.mono (by omega)),
          readExtension_of_below hends.1]
      rw [List.append_assoc, List.cons_append, readRow_comma hsum hu,
        readRow_row others hus hclose, RowTree.exprs]
      rfl

end

end Parser

end SymbolicRegression
