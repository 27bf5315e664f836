import SymbolicRegression.Proofs.Parsing.Soundness

/-!
# The parser looks one token ahead

What a reader gives back depends on the tokens that it uses and on the kind of the next one, and on
nothing else. So two rows of tokens that are of the same kinds up to some place are read alike as
long as the reader stops in front of that place: `Along back tokens others` says that they are of
the same kinds until the first row comes down to `back`, and what is kept is that the tokens which
are left still are, and are more than `back`.

The token behind the last one that is used has to be one of those that the rows have in common. It
is what an operator loop gives up at, and what tells a name from a call.
-/

namespace SymbolicRegression

namespace Parser

variable {stop : Token}

/-- The rows are of the same kinds, token by token, until the first one comes down to `back`. -/
inductive Along (back : List Token) : List Token → List Token → Prop where
  | here (others : List Token) : Along back back others
  | cons {t u : Token} {tokens others : List Token} : t.kind = u.kind →
      Along back tokens others → Along back (t :: tokens) (u :: others)

namespace Along

variable {back tokens others : List Token}

/-- As long as there is more than `back`, the rows have a token in common. -/
theorem exists_cons {t : Token} (h : Along back (t :: tokens) others)
    (hlt : back.length < (t :: tokens).length) :
    ∃ u others', others = u :: others' ∧ t.kind = u.kind ∧ Along back tokens others' := by
  cases h with
  | here => exact absurd hlt (Nat.lt_irrefl _)
  | cons hkind h => exact ⟨_, _, rfl, hkind, h⟩

/-- What is known of the kind of the next token in one row holds in the other. -/
theorem forall_head {p : TokenKind → Prop} (h : Along back tokens others)
    (hlt : back.length < tokens.length) (hp : ∀ t rest, tokens = t :: rest → p t.kind) :
    ∀ u rest, others = u :: rest → p u.kind := by
  intro u rest hu
  cases h with
  | here => exact absurd hlt (Nat.lt_irrefl _)
  | cons hkind _ =>
      cases hu
      rw [← hkind]
      exact hp _ _ rfl

theorem keeps_below {least : Nat} (h : Along back tokens others) (hlt : back.length < tokens.length)
    (hbelow : Below least tokens) : Below least others := by
  intro u rest op hu hop
  refine h.forall_head (p := fun kind => ∀ op, operation? kind = some op →
    op.bindingPower.1 < least) hlt ?_ u rest hu op hop
  intro t rest ht op hop
  exact hbelow t rest op ht hop

/-- Rows that begin alike go on from the same place. -/
theorem of_map_eq {front front' : List Token} (h : front.map Token.kind = front'.map Token.kind)
    (back others : List Token) : Along back (front ++ back) (front' ++ others) := by
  induction front generalizing front' with
  | nil =>
      cases front' with
      | nil => exact .here others
      | cons _ _ => cases h
  | cons t front ih =>
      cases front' with
      | nil => cases h
      | cons u front' =>
          obtain ⟨hkind, h⟩ := List.cons.inj h
          exact .cons hkind (ih h)

end Along

/-! ## Tokens are used up -/

theorem of_plain {α : Type} {p : List Token → Prop} {rest : List Token} {a : α}
    {r : Except ParseError (α × { rest : List Token // p rest })} (h : plain r = .ok (a, rest)) :
    p rest := by
  cases r with
  | error _ => cases h
  | ok r =>
      cases h
      exact r.2.2

section Lengths

variable {least : Nat} {tokens rest : List Token} {e left : Expr Float} {es : List (Expr Float)}

theorem length_lt_of_readExpression (h : readExpression stop least tokens = .ok (e, rest)) :
    rest.length < tokens.length :=
  of_plain h

theorem length_le_of_readExtension (h : readExtension stop least left tokens = .ok (e, rest)) :
    rest.length ≤ tokens.length :=
  of_plain h

theorem length_lt_of_readOperand (h : readOperand stop tokens = .ok (e, rest)) :
    rest.length < tokens.length :=
  of_plain h

theorem length_lt_of_readArguments (h : readArguments stop tokens = .ok (es, rest)) :
    rest.length < tokens.length :=
  of_plain h

theorem length_lt_of_readRow (h : readRow stop tokens = .ok (es, rest)) :
    rest.length < tokens.length :=
  of_plain h

end Lengths

/-! ## Reading alike -/

theorem readClosing_along {tokens rest back others : List Token}
    (h : readClosing stop tokens = .ok rest) (hshare : Along back tokens others)
    (hrest : back.length < rest.length) (stop' : Token) :
    ∃ rest', readClosing stop' others = .ok rest' ∧ Along back rest rest' := by
  obtain ⟨t, rfl, ht⟩ := readClosing_eq_ok h
  obtain ⟨u, others, rfl, hkind, hshare⟩ := hshare.exists_cons (Nat.lt_succ_of_lt hrest)
  exact ⟨others, readClosing_paren (hkind ▸ ht), hshare⟩

mutual

theorem readExpression_along {least : Nat} {tokens rest back others : List Token} {e : Expr Float}
    (h : readExpression stop least tokens = .ok (e, rest)) (hshare : Along back tokens others)
    (hrest : back.length < rest.length) (stop' : Token) :
    ∃ rest', readExpression stop' least others = .ok (e, rest') ∧ Along back rest rest' := by
  rw [readExpression_eq] at h
  obtain ⟨⟨left, behind⟩, hoperand, hextension⟩ := bind_eq_ok h
  have hlen := length_lt_of_readOperand hoperand
  have hle := length_le_of_readExtension hextension
  obtain ⟨behind', hoperand', hshare'⟩ :=
    readOperand_along hoperand hshare (Nat.lt_of_lt_of_le hrest hle) stop'
  obtain ⟨rest', hextension', hshare''⟩ := readExtension_along hextension hshare' hrest stop'
  refine ⟨rest', ?_, hshare''⟩
  rw [readExpression_eq, hoperand']
  exact hextension'
  termination_by (tokens.length, 2)

theorem readExtension_along {least : Nat} {left : Expr Float}
    {tokens rest back others : List Token} {e : Expr Float}
    (h : readExtension stop least left tokens = .ok (e, rest)) (hshare : Along back tokens others)
    (hrest : back.length < rest.length) (stop' : Token) :
    ∃ rest', readExtension stop' least left others = .ok (e, rest') ∧ Along back rest rest' := by
  by_cases hbelow : Below least tokens
  · rw [readExtension_of_below hbelow] at h
    cases h
    exact ⟨others, readExtension_of_below (hshare.keeps_below hrest hbelow), hshare⟩
  · cases tokens with
    | nil => exact absurd below_nil hbelow
    | cons t tokens =>
        obtain ⟨op, hop, hle⟩ : ∃ op, operation? t.kind = some op ∧ least ≤ op.bindingPower.1 := by
          simpa [below_cons] using hbelow
        rw [readExtension_cons hop hle] at h
        obtain ⟨⟨right, behind⟩, hexpression, hextension⟩ := bind_eq_ok h
        have hlen : behind.length < (t :: tokens).length :=
          Nat.lt_succ_of_lt (length_lt_of_readExpression hexpression)
        have hlen' : rest.length ≤ behind.length := length_le_of_readExtension hextension
        obtain ⟨u, others, rfl, hkind, hshare⟩ := hshare.exists_cons (by omega)
        obtain ⟨behind', hexpression', hshare'⟩ :=
          readExpression_along hexpression hshare (by omega) stop'
        obtain ⟨rest', hextension', hshare''⟩ := readExtension_along hextension hshare' hrest stop'
        refine ⟨rest', ?_, hshare''⟩
        rw [readExtension_cons (hkind ▸ hop) hle, hexpression']
        exact hextension'
  termination_by (tokens.length, 0)

theorem readOperand_along {tokens rest back others : List Token} {e : Expr Float}
    (h : readOperand stop tokens = .ok (e, rest)) (hshare : Along back tokens others)
    (hrest : back.length < rest.length) (stop' : Token) :
    ∃ rest', readOperand stop' others = .ok (e, rest') ∧ Along back rest rest' := by
  cases tokens with
  | nil => rw [readOperand_nil] at h; cases h
  | cons t tokens =>
      have hlen := length_lt_of_readOperand h
      obtain ⟨u, others, rfl, hkind, hshare⟩ := hshare.exists_cons (Nat.lt_trans hrest hlen)
      rw [List.length_cons] at hlen
      cases hk : t.kind with
      | number value =>
          rw [readOperand_number hk] at h
          cases h
          exact ⟨others, readOperand_number (hkind ▸ hk), hshare⟩
      | minus =>
          rw [readOperand_minus hk] at h
          obtain ⟨⟨e', behind⟩, hexpression, heq⟩ := bind_eq_ok h
          cases heq
          obtain ⟨rest', hexpression', hshare'⟩ :=
            readExpression_along hexpression hshare hrest stop'
          refine ⟨rest', ?_, hshare'⟩
          rw [readOperand_minus (hkind ▸ hk), hexpression']
          rfl
      | plus =>
          rw [readOperand_plus hk] at h
          obtain ⟨rest', hexpression', hshare'⟩ := readExpression_along h hshare hrest stop'
          exact ⟨rest', (readOperand_plus (hkind ▸ hk)).trans hexpression', hshare'⟩
      | leftParen =>
          rw [readOperand_parens hk] at h
          obtain ⟨⟨e', behind⟩, hexpression, hclosing⟩ := bind_eq_ok h
          obtain ⟨rest₁, hclosing, heq⟩ := bind_eq_ok hclosing
          cases heq
          have hbehind : back.length < behind.length := by
            obtain ⟨close, rfl, -⟩ := readClosing_eq_ok hclosing
            exact Nat.lt_succ_of_lt hrest
          obtain ⟨behind', hexpression', hshare'⟩ :=
            readExpression_along hexpression hshare hbehind stop'
          obtain ⟨rest', hclosing', hshare''⟩ := readClosing_along hclosing hshare' hrest stop'
          refine ⟨rest', ?_, hshare''⟩
          rw [readOperand_parens (hkind ▸ hk), hexpression']
          show (readClosing stop' behind').bind _ = _
          rw [hclosing']
          rfl
      | name name =>
          by_cases hcall : ∃ v tokens', tokens = v :: tokens' ∧ v.kind = .leftParen
          · obtain ⟨v, tokens', rfl, hv⟩ := hcall
            rw [readOperand_call hk hv] at h
            obtain ⟨⟨es, behind⟩, harguments, heq⟩ := bind_eq_ok h
            cases heq
            dsimp only at hrest
            have hlen' := length_lt_of_readArguments harguments
            obtain ⟨w, others, rfl, hkind', hshare⟩ :=
              hshare.exists_cons (by rw [List.length_cons]; omega)
            obtain ⟨rest', harguments', hshare'⟩ :=
              readArguments_along harguments hshare hrest stop'
            refine ⟨rest', ?_, hshare'⟩
            rw [readOperand_call (hkind ▸ hk) (hkind' ▸ hv), harguments']
            rfl
          · have hname : ∀ v tokens', tokens = v :: tokens' → v.kind ≠ .leftParen :=
              fun v tokens' heq hv => hcall ⟨v, tokens', heq, hv⟩
            rw [readOperand_name hk hname] at h
            cases h
            have hname' := hshare.forall_head (p := (· ≠ .leftParen)) hrest hname
            exact ⟨others, readOperand_name (hkind ▸ hk) hname', hshare⟩
      | rightParen | comma | doubleStar | star | slash | caret | endOfInput =>
          rw [readOperand_other (by rw [hk]; rfl)] at h
          cases h
  termination_by (tokens.length, 1)

theorem readArguments_along {tokens rest back others : List Token} {es : List (Expr Float)}
    (h : readArguments stop tokens = .ok (es, rest)) (hshare : Along back tokens others)
    (hrest : back.length < rest.length) (stop' : Token) :
    ∃ rest', readArguments stop' others = .ok (es, rest') ∧ Along back rest rest' := by
  have hlen := length_lt_of_readArguments h
  by_cases hclose : ∃ t tokens', tokens = t :: tokens' ∧ t.kind = .rightParen
  · obtain ⟨t, tokens', rfl, ht⟩ := hclose
    rw [readArguments_paren ht] at h
    cases h
    obtain ⟨u, others, rfl, hkind, hshare⟩ := hshare.exists_cons (Nat.lt_succ_of_lt hrest)
    exact ⟨others, readArguments_paren (hkind ▸ ht), hshare⟩
  · have hrow : ∀ t tokens', tokens = t :: tokens' → t.kind ≠ .rightParen :=
      fun t tokens' heq ht => hclose ⟨t, tokens', heq, ht⟩
    rw [readArguments_row hrow] at h
    obtain ⟨rest', hrow', hshare'⟩ := readRow_along h hshare hrest stop'
    refine ⟨rest', ?_, hshare'⟩
    have hothers := hshare.forall_head (p := (· ≠ .rightParen)) (Nat.lt_trans hrest hlen) hrow
    rw [readArguments_row hothers, hrow']
  termination_by (tokens.length, 4)

theorem readRow_along {tokens rest back others : List Token} {es : List (Expr Float)}
    (h : readRow stop tokens = .ok (es, rest)) (hshare : Along back tokens others)
    (hrest : back.length < rest.length) (stop' : Token) :
    ∃ rest', readRow stop' others = .ok (es, rest') ∧ Along back rest rest' := by
  cases hexpression : readExpression stop 0 tokens with
  | error e => rw [readRow_error hexpression] at h; cases h
  | ok r =>
      obtain ⟨first, behind⟩ := r
      have hlen := length_lt_of_readExpression hexpression
      by_cases hcomma : ∃ t behind', behind = t :: behind' ∧ t.kind = .comma
      · obtain ⟨t, behind, rfl, ht⟩ := hcomma
        rw [readRow_comma hexpression ht] at h
        obtain ⟨⟨es', rest₁⟩, hrow, heq⟩ := bind_eq_ok h
        cases heq
        dsimp only at hrest
        have hlen' := length_lt_of_readRow hrow
        have hlen'' : behind.length < tokens.length := Nat.lt_of_succ_lt hlen
        obtain ⟨behind', hexpression', hshare'⟩ :=
          readExpression_along hexpression hshare (by rw [List.length_cons]; omega) stop'
        obtain ⟨u, behind', rfl, hkind, hshare'⟩ :=
          hshare'.exists_cons (by rw [List.length_cons]; omega)
        obtain ⟨rest', hrow', hshare''⟩ := readRow_along hrow hshare' hrest stop'
        refine ⟨rest', ?_, hshare''⟩
        rw [readRow_comma hexpression' (hkind ▸ ht), hrow']
        rfl
      · have hlast : ∀ t behind', behind = t :: behind' → t.kind ≠ .comma :=
          fun t behind' heq ht => hcomma ⟨t, behind', heq, ht⟩
        rw [readRow_last hexpression hlast] at h
        obtain ⟨rest₁, hclosing, heq⟩ := bind_eq_ok h
        cases heq
        have hbehind : back.length < behind.length := by
          obtain ⟨close, rfl, -⟩ := readClosing_eq_ok hclosing
          exact Nat.lt_succ_of_lt hrest
        obtain ⟨behind', hexpression', hshare'⟩ :=
          readExpression_along hexpression hshare hbehind stop'
        obtain ⟨rest', hclosing', hshare''⟩ := readClosing_along hclosing hshare' hrest stop'
        refine ⟨rest', ?_, hshare''⟩
        have hlast' := hshare'.forall_head (p := (· ≠ .comma)) hbehind hlast
        rw [readRow_last hexpression' hlast', hclosing']
        rfl
  termination_by (tokens.length, 3)

end

end Parser

end SymbolicRegression
