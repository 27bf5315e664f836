import SymbolicRegression.Proofs.Parsing.Embedding

/-!
# Where names stand in a text

An expression is gone through from the left: a call before its arguments, and operands in their
order. The names that are met this way, as values and as functions, are the identifiers of the text
in the order in which they stand there, and what tells a function from a value is the parenthesis
behind it. Signs, infix operations, parentheses and commas do not matter, however they nest.

The grammar carries the proof. Each derivation lists its tokens and denotes its expression, so the
induction is on derivations. It is about tokens with others behind them, because only what follows
can say whether an identifier at the end is called, and nothing that may follow a derivation opens a
call.
-/

namespace SymbolicRegression

/-- A use of a name: as the function of a call, or as a value. -/
structure NameUse where
  name : String
  isCall : Bool

namespace Expr

variable {K : Type}

mutual

/-- The expression and all that it is made of, each part before its operands and these from left to
right. -/
def parts : Expr K → List (Expr K)
  | number v => [number v]
  | name n => [name n]
  | call f arguments => call f arguments :: partsAll arguments
  | neg e => neg e :: parts e
  | binary op l r => binary op l r :: (parts l ++ parts r)

def partsAll : List (Expr K) → List (Expr K)
  | [] => []
  | e :: es => parts e ++ partsAll es

end

/-- The use of a name that an expression begins with. -/
def use? : Expr K → Option NameUse
  | name n => some ⟨n, false⟩
  | call f _ => some ⟨f, true⟩
  | _ => none

/-- The uses of names in an expression, a call before its arguments and these from left to right. -/
def uses (e : Expr K) : List NameUse :=
  e.parts.filterMap use?

def usesAll (es : List (Expr K)) : List NameUse :=
  (partsAll es).filterMap use?

@[simp] theorem uses_number (v : K) : (number v).uses = [] := rfl

@[simp] theorem uses_name (n : String) : (name n : Expr K).uses = [⟨n, false⟩] := rfl

@[simp] theorem uses_neg (e : Expr K) : (neg e).uses = e.uses := by
  rw [uses, parts, List.filterMap_cons_none rfl, uses]

@[simp] theorem uses_binary (op : BinaryOp) (l r : Expr K) :
    (binary op l r).uses = l.uses ++ r.uses := by
  rw [uses, parts, List.filterMap_cons_none rfl, List.filterMap_append, uses, uses]

@[simp] theorem uses_call (f : String) (es : List (Expr K)) :
    (call f es).uses = ⟨f, true⟩ :: usesAll es := by
  have hcall : use? (call f es) = some ⟨f, true⟩ := rfl
  rw [uses, parts, List.filterMap_cons_some hcall, usesAll]

@[simp] theorem usesAll_nil : usesAll ([] : List (Expr K)) = [] := rfl

@[simp] theorem usesAll_cons (e : Expr K) (es : List (Expr K)) :
    usesAll (e :: es) = e.uses ++ usesAll es := by
  rw [usesAll, partsAll, List.filterMap_append, uses, usesAll]

mutual

/-- The names used as values are those that are not called. -/
theorem names_eq_uses : ∀ e : Expr K,
    e.names = (e.uses.filter fun u => !u.isCall).map NameUse.name
  | number v => by simp [names]
  | name n => by simp [names]
  | neg e => by simp [names, names_eq_uses e]
  | binary op l r => by simp [names, names_eq_uses l, names_eq_uses r]
  | call f es => by simp [names, namesAll_eq_usesAll es]

theorem namesAll_eq_usesAll : ∀ es : List (Expr K),
    namesAll es = ((usesAll es).filter fun u => !u.isCall).map NameUse.name
  | [] => by simp [namesAll]
  | e :: es => by simp [namesAll, names_eq_uses e, namesAll_eq_usesAll es]

end

end Expr

/-! ## Identifiers among tokens -/

namespace Grammar

/-- Do the tokens begin with a parenthesis that would make a call of an identifier before them? -/
def opensCall : List TokenKind → Bool
  | .leftParen :: _ => true
  | _ => false

/-- The identifiers among tokens, from left to right, with whether they are called. -/
def usesOf : List TokenKind → List NameUse
  | [] => []
  | .name n :: kinds => ⟨n, opensCall kinds⟩ :: usesOf kinds
  | _ :: kinds => usesOf kinds

variable {kinds : List TokenKind}

@[simp] theorem usesOf_comma : usesOf (.comma :: kinds) = usesOf kinds := rfl

@[simp] theorem usesOf_sign (sign : Sign) : usesOf (sign.kind :: kinds) = usesOf kinds := by
  cases sign <;> rfl

@[simp] theorem usesOf_scaling (scaling : Scaling) :
    usesOf (scaling.kind :: kinds) = usesOf kinds := by
  cases scaling <;> rfl

@[simp] theorem usesOf_raising (raising : Raising) :
    usesOf (raising.kind :: kinds) = usesOf kinds := by
  cases raising <;> rfl

@[simp] theorem opensCall_raising (raising : Raising) :
    opensCall (raising.kind :: kinds) = false := by
  cases raising <;> rfl

/-- The products of a sum after its first one begin with a sign. -/
theorem SumTail.opensCall_append (s : SumTail) {rest : List TokenKind}
    (h : opensCall rest = false) : opensCall (s.kinds ++ rest) = false := by
  cases s with
  | done => exact h
  | more sign product others => cases sign <;> rfl

theorem ProductTail.opensCall_append (p : ProductTail) {rest : List TokenKind}
    (h : opensCall rest = false) : opensCall (p.kinds ++ rest) = false := by
  cases p with
  | done => exact h
  | more scaling factor others => cases scaling <;> rfl

@[simp] theorem Sign.uses_apply (sign : Sign) (e : Expr Float) : (sign.apply e).uses = e.uses := by
  cases sign with
  | plus => rfl
  | minus => exact Expr.uses_neg e

/-! ## Derivations -/

mutual

theorem SumTree.usesOf_append : ∀ (s : SumTree) {rest : List TokenKind}, opensCall rest = false →
    usesOf (s.kinds ++ rest) = s.expr.uses ++ usesOf rest
  | .mk first others, rest, h => by
      rw [SumTree.kinds, SumTree.expr, List.append_assoc,
        ProductTree.usesOf_append first (others.opensCall_append h)]
      exact (SumTail.usesOf_append others h).symm

/-- The products are added to what stands before them, so its names come first. -/
theorem SumTail.usesOf_append : ∀ (s : SumTail) {left : Expr Float} {rest : List TokenKind},
    opensCall rest = false →
      (s.exprFrom left).uses ++ usesOf rest = left.uses ++ usesOf (s.kinds ++ rest)
  | .done, _, _, _ => by rw [SumTail.exprFrom, SumTail.kinds, List.nil_append]
  | .more sign product others, left, rest, h => by
      rw [SumTail.exprFrom, SumTail.usesOf_append others h, SumTail.kinds, List.cons_append,
        usesOf_sign, List.append_assoc,
        ProductTree.usesOf_append product (others.opensCall_append h), Expr.uses_binary,
        List.append_assoc]

theorem ProductTree.usesOf_append : ∀ (p : ProductTree) {rest : List TokenKind},
    opensCall rest = false → usesOf (p.kinds ++ rest) = p.expr.uses ++ usesOf rest
  | .mk first others, rest, h => by
      rw [ProductTree.kinds, ProductTree.expr, List.append_assoc,
        SignedTree.usesOf_append first (others.opensCall_append h)]
      exact (ProductTail.usesOf_append others h).symm

theorem ProductTail.usesOf_append : ∀ (p : ProductTail) {left : Expr Float}
    {rest : List TokenKind}, opensCall rest = false →
      (p.exprFrom left).uses ++ usesOf rest = left.uses ++ usesOf (p.kinds ++ rest)
  | .done, _, _, _ => by rw [ProductTail.exprFrom, ProductTail.kinds, List.nil_append]
  | .more scaling factor others, left, rest, h => by
      rw [ProductTail.exprFrom, ProductTail.usesOf_append others h, ProductTail.kinds,
        List.cons_append, usesOf_scaling, List.append_assoc,
        SignedTree.usesOf_append factor (others.opensCall_append h), Expr.uses_binary,
        List.append_assoc]

theorem SignedTree.usesOf_append : ∀ (f : SignedTree) {rest : List TokenKind},
    opensCall rest = false → usesOf (f.kinds ++ rest) = f.expr.uses ++ usesOf rest
  | .sign sign factor, rest, h => by
      rw [SignedTree.kinds, SignedTree.expr, List.cons_append, usesOf_sign, Sign.uses_apply]
      exact SignedTree.usesOf_append factor h
  | .power power, rest, h => by
      rw [SignedTree.kinds, SignedTree.expr]
      exact PowerTree.usesOf_append power h

theorem PowerTree.usesOf_append : ∀ (p : PowerTree) {rest : List TokenKind},
    opensCall rest = false → usesOf (p.kinds ++ rest) = p.expr.uses ++ usesOf rest
  | .bare base, rest, h => by
      rw [PowerTree.kinds, PowerTree.expr]
      exact AtomTree.usesOf_append base h
  | .raised base raising exponent, rest, h => by
      rw [PowerTree.kinds, PowerTree.expr, List.append_assoc, List.cons_append,
        AtomTree.usesOf_append base (opensCall_raising raising), usesOf_raising,
        SignedTree.usesOf_append exponent h, Expr.uses_binary, List.append_assoc]

theorem AtomTree.usesOf_append : ∀ (a : AtomTree) {rest : List TokenKind},
    opensCall rest = false → usesOf (a.kinds ++ rest) = a.expr.uses ++ usesOf rest
  | .number value, rest, _ => rfl
  | .name name, rest, h => by
      rw [AtomTree.kinds, AtomTree.expr, Expr.uses_name, List.singleton_append, usesOf, h,
        List.singleton_append]
  | .emptyCall name, rest, _ => rfl
  | .call name row, rest, _ => by
      have hrow : usesOf (row.kinds ++ .rightParen :: rest) =
          Expr.usesAll row.exprs ++ usesOf (.rightParen :: rest) :=
        RowTree.usesOf_append row rfl
      simp only [AtomTree.kinds, AtomTree.expr, Expr.uses_call, List.cons_append,
        List.append_assoc, List.nil_append, usesOf, hrow, opensCall]
  | .parens sum, rest, _ => by
      have hsum : usesOf (sum.kinds ++ .rightParen :: rest) =
          sum.expr.uses ++ usesOf (.rightParen :: rest) :=
        SumTree.usesOf_append sum rfl
      simp only [AtomTree.kinds, AtomTree.expr, List.cons_append, List.append_assoc,
        List.nil_append, usesOf, hsum]

theorem RowTree.usesOf_append : ∀ (r : RowTree) {rest : List TokenKind},
    opensCall rest = false → usesOf (r.kinds ++ rest) = Expr.usesAll r.exprs ++ usesOf rest
  | .last sum, rest, h => by
      rw [RowTree.kinds, RowTree.exprs, SumTree.usesOf_append sum h, Expr.usesAll_cons,
        Expr.usesAll_nil, List.append_nil]
  | .more sum others, rest, h => by
      have hsum : usesOf (sum.kinds ++ .comma :: (others.kinds ++ rest)) =
          sum.expr.uses ++ usesOf (.comma :: (others.kinds ++ rest)) :=
        SumTree.usesOf_append sum rfl
      rw [RowTree.kinds, RowTree.exprs, List.append_assoc, List.cons_append, hsum,
        usesOf_comma, RowTree.usesOf_append others h, Expr.usesAll_cons, List.append_assoc]

end

end Grammar

/-- The names in an expression are used in the order in which they stand in its text, and those
before an opening parenthesis are the ones that are called. -/
theorem uses_of_parse {text : String} {tokens : List Token} {e : Expr Float}
    (htokens : tokenize text = .ok tokens) (h : parse text = .ok e) :
    e.uses = Grammar.usesOf (tokens.map Token.kind) := by
  rw [parse, htokens] at h
  obtain ⟨s, hkinds, rfl⟩ := Parser.whole_eq_ok_iff.mp h
  have hall : Grammar.usesOf (s.kinds ++ []) = s.expr.uses ++ Grammar.usesOf [] :=
    s.usesOf_append rfl
  rw [← hkinds, ← List.append_nil s.kinds, hall, Grammar.usesOf, List.append_nil]

end SymbolicRegression
