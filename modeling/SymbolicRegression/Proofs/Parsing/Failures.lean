import SymbolicRegression.Proofs.Parsing.Lookahead

/-!
# Where a reader fails

A reader that fails has got stuck at one token, and the error is about that token. Two things are
shown of it, each by following the reader to the place. It has to fail there: whatever stands behind
that token instead, the reader fails again, since it has not looked any further. And it could have
gone on in front of it: the tokens that it has used begin something that it reads, and a few names
and closing parentheses are enough to complete it.

For the second part it has to be known what was being read at every level. Operands that are left
behind are described by `Left`, as where the parser succeeds; the level that got stuck is completed
by one name or one closing parenthesis, and every level around it by its own closing parenthesis, if
it has one. An operator loop that has given up is never in the way: it has only given up on a token
that the loops around it still look at.
-/

namespace SymbolicRegression

namespace Parser

open Grammar

variable {stop : Token}

/-- The reader fails at the first of the tokens `rest`, behind those that it has used. It fails on
every row of tokens that is of the same kinds up to and with that token. -/
structure FailsAt {α : Type} (read : Token → List Token → Except ParseError α) (stop : Token)
    (tokens : List Token) (error : ParseError) (used rest : List Token) : Prop where
  split : tokens = used ++ rest
  report : ∃ expected, error = unexpected stop expected rest
  again : ∀ {back others : List Token} (stop' : Token), Along back tokens others →
    back.length < rest.length → ∃ error', read stop' others = .error error'

/-- Tokens that complete an expression: names and closing parentheses, at least one. -/
structure Completion (more : List TokenKind) : Prop where
  ne_nil : more ≠ []
  kinds : ∀ kind ∈ more, kind = .name "x" ∨ kind = .rightParen

theorem completion_name : Completion [.name "x"] :=
  ⟨List.cons_ne_nil _ _, fun _ h => .inl (List.mem_singleton.mp h)⟩

theorem completion_paren : Completion [.rightParen] :=
  ⟨List.cons_ne_nil _ _, fun _ h => .inr (List.mem_singleton.mp h)⟩

theorem Completion.close {more : List TokenKind} (h : Completion more) :
    Completion (more ++ [.rightParen]) := by
  refine ⟨List.append_ne_nil_of_left_ne_nil h.ne_nil _, fun kind hkind => ?_⟩
  rcases List.mem_append.mp hkind with hkind | hkind
  · exact h.kinds kind hkind
  · exact .inr (List.mem_singleton.mp hkind)

/-- A reader that hands what is left behind some tokens to another one fails where that one does. -/
theorem FailsAt.after {α β : Type} {read : Token → List Token → Except ParseError α}
    {read' : Token → List Token → Except ParseError β} {tokens front behind used rest : List Token}
    {error : ParseError} (h : FailsAt read stop behind error used rest)
    (hsplit : tokens = front ++ behind)
    (hread : ∀ {back others : List Token} (stop' : Token), Along back tokens others →
      back.length < behind.length → ∃ others', Along back behind others' ∧
        ∀ error', read stop' others' = .error error' → read' stop' others = .error error') :
    FailsAt read' stop tokens error (front ++ used) rest where
  split := by rw [hsplit, h.split, List.append_assoc]
  report := h.report
  again := by
    intro back others stop' hshare hlt
    have hle : rest.length ≤ behind.length := by
      rw [h.split, List.length_append]
      omega
    obtain ⟨others', hshare', hfails⟩ := hread stop' hshare (Nat.lt_of_lt_of_le hlt hle)
    obtain ⟨error', herror⟩ := h.again stop' hshare' hlt
    exact ⟨error', hfails error' herror⟩

/-! ## A closing parenthesis -/

theorem readClosing_other {t : Token} {rest : List Token} (h : t.kind ≠ .rightParen) :
    readClosing stop (t :: rest) =
      .error (unexpected stop TokenKind.rightParen.describe (t :: rest)) := by
  cases hk : t.kind with
  | rightParen => exact absurd hk h
  | _ => simp only [readClosing, closing, hk]

theorem failsAt_readClosing {tokens : List Token} {error : ParseError}
    (h : readClosing stop tokens = .error error) :
    FailsAt readClosing stop tokens error [] tokens := by
  cases tokens with
  | nil =>
      cases h
      exact ⟨rfl, ⟨_, rfl⟩, fun _ _ hlt => absurd hlt (Nat.not_lt_zero _)⟩
  | cons t rest =>
      have ht : t.kind ≠ .rightParen := by
        intro ht
        rw [readClosing_paren ht] at h
        cases h
      rw [readClosing_other ht] at h
      cases h
      refine ⟨rfl, ⟨_, rfl⟩, fun stop' hshare hlt => ?_⟩
      obtain ⟨u, others, rfl, hkind, -⟩ := hshare.exists_cons hlt
      exact ⟨_, readClosing_other (hkind ▸ ht)⟩

/-! ## Readers that fail -/

mutual

theorem failsAt_readExpression {least : Nat} {tokens : List Token} {error : ParseError}
    (h : readExpression stop least tokens = .error error) :
    ∃ used rest, FailsAt (readExpression · least) stop tokens error used rest ∧
      ∃ more e, Completion more ∧ Derives least (used.map Token.kind ++ more) e := by
  rw [readExpression_eq] at h
  rcases bind_eq_error h with hoperand | ⟨⟨left, behind⟩, hoperand, hextension⟩
  · obtain ⟨used, rest, hfails, more, e, hmore, hleft⟩ := failsAt_readOperand hoperand
    refine ⟨[] ++ used, rest, hfails.after rfl fun stop' hshare _ => ?_, more, e, hmore,
      (hleft least).derives⟩
    exact ⟨_, hshare, fun _ herror => by rw [readExpression_eq, herror]; rfl⟩
  · have hlen := length_lt_of_readOperand hoperand
    obtain ⟨used, rfl, hne, hleft⟩ := left_of_readOperand hoperand
    obtain ⟨used', rest, hfails, more, e, hmore, hderives⟩ :=
      failsAt_readExtension hextension (hleft least)
    refine ⟨used ++ used', rest, hfails.after rfl fun stop' hshare hlt => ?_, more, e, hmore, ?_⟩
    · obtain ⟨behind', hoperand', hshare'⟩ := readOperand_along hoperand hshare hlt stop'
      refine ⟨behind', hshare', fun _ herror => ?_⟩
      rw [readExpression_eq, hoperand']
      exact herror
    · rw [List.map_append]
      exact hderives
  termination_by (tokens.length, 2)

/-- Going on behind a left operand. -/
theorem failsAt_readExtension {least : Nat} {left : Expr Float} {tokens : List Token}
    {kinds : List TokenKind} {error : ParseError}
    (h : readExtension stop least left tokens = .error error)
    (hleft : Left least kinds left tokens) :
    ∃ used rest, FailsAt (readExtension · least left) stop tokens error used rest ∧
      ∃ more e, Completion more ∧ Derives least (kinds ++ used.map Token.kind ++ more) e := by
  by_cases hbelow : Below least tokens
  · rw [readExtension_of_below hbelow] at h
    cases h
  · cases tokens with
    | nil => exact absurd below_nil hbelow
    | cons t tokens =>
        obtain ⟨op, hop, hle⟩ : ∃ op, operation? t.kind = some op ∧ least ≤ op.bindingPower.1 := by
          simpa [below_cons] using hbelow
        rw [readExtension_cons hop hle] at h
        rcases bind_eq_error h with hexpression | ⟨⟨right, behind⟩, hexpression, hextension⟩
        · obtain ⟨used, rest, hfails, more, right, hmore, hderives⟩ :=
            failsAt_readExpression hexpression
          have hcompleted := (hleft.step hop hle hderives below_nil).derives
          refine ⟨[t] ++ used, rest, hfails.after rfl fun stop' hshare hlt => ?_, more,
            .binary op left right, hmore, by simpa using hcompleted⟩
          obtain ⟨u, others, rfl, hkind, hshare⟩ := hshare.exists_cons (Nat.lt_succ_of_lt hlt)
          refine ⟨others, hshare, fun _ herror => ?_⟩
          rw [readExtension_cons (hkind ▸ hop) hle, herror]
          rfl
        · have hlen := length_lt_of_readExpression hexpression
          have hlen' : behind.length < (t :: tokens).length := Nat.lt_succ_of_lt hlen
          obtain ⟨used, rfl, hderives, hbelow'⟩ := derives_of_readExpression hexpression
          obtain ⟨used', rest, hfails, more, e, hmore, hderives'⟩ :=
            failsAt_readExtension hextension (hleft.step hop hle hderives hbelow')
          refine ⟨t :: used ++ used', rest, hfails.after rfl fun stop' hshare hlt => ?_, more, e,
            hmore, by simpa using hderives'⟩
          obtain ⟨u, others, rfl, hkind, hshare⟩ := hshare.exists_cons (Nat.lt_trans hlt hlen')
          obtain ⟨behind', hexpression', hshare'⟩ :=
            readExpression_along hexpression hshare hlt stop'
          refine ⟨behind', hshare', fun _ herror => ?_⟩
          rw [readExtension_cons (hkind ▸ hop) hle, hexpression']
          exact herror
  termination_by (tokens.length, 0)

/-- What completes an operand makes it one that may stand on the left of any operation. -/
theorem failsAt_readOperand {tokens : List Token} {error : ParseError}
    (h : readOperand stop tokens = .error error) :
    ∃ used rest, FailsAt readOperand stop tokens error used rest ∧
      ∃ more e, Completion more ∧ ∀ least, Left least (used.map Token.kind ++ more) e [] := by
  have hname : ∀ least, Left least ([].map Token.kind ++ [.name "x"]) (.name "x") [] :=
    fun least => .of_atom (.name "x") (by rw [AtomTree.kinds]; rfl) (by rw [AtomTree.expr])
  cases tokens with
  | nil =>
      rw [readOperand_nil] at h
      cases h
      exact ⟨[], [], ⟨rfl, ⟨_, rfl⟩, fun _ _ hlt => absurd hlt (Nat.not_lt_zero _)⟩,
        _, _, completion_name, hname⟩
  | cons t tokens =>
      cases hk : t.kind with
      | number value => rw [readOperand_number hk] at h; cases h
      | minus =>
          rw [readOperand_minus hk] at h
          rcases bind_eq_error h with hexpression | ⟨_, _, heq⟩
          · obtain ⟨used, rest, hfails, more, e, hmore, hderives⟩ :=
              failsAt_readExpression hexpression
            refine ⟨[t] ++ used, rest, hfails.after rfl fun stop' hshare hlt => ?_, more, .neg e,
              hmore, fun least => ?_⟩
            · obtain ⟨u, others, rfl, hkind, hshare⟩ := hshare.exists_cons (Nat.lt_succ_of_lt hlt)
              refine ⟨others, hshare, fun _ herror => ?_⟩
              rw [readOperand_minus (hkind ▸ hk), herror]
              rfl
            · rw [List.map_append, List.map_singleton, hk]
              exact .of_sign .minus hderives below_nil
          · cases heq
      | plus =>
          rw [readOperand_plus hk] at h
          obtain ⟨used, rest, hfails, more, e, hmore, hderives⟩ := failsAt_readExpression h
          refine ⟨[t] ++ used, rest, hfails.after rfl fun stop' hshare hlt => ?_, more, e, hmore,
            fun least => ?_⟩
          · obtain ⟨u, others, rfl, hkind, hshare⟩ := hshare.exists_cons (Nat.lt_succ_of_lt hlt)
            refine ⟨others, hshare, fun _ herror => ?_⟩
            rw [readOperand_plus (hkind ▸ hk), herror]
          · rw [List.map_append, List.map_singleton, hk]
            exact .of_sign .plus hderives below_nil
      | leftParen =>
          rw [readOperand_parens hk] at h
          rcases bind_eq_error h with hexpression | ⟨⟨e, behind⟩, hexpression, hclosing⟩
          · obtain ⟨used, rest, hfails, more, e, hmore, s, hkinds, rfl⟩ :=
              failsAt_readExpression hexpression
            refine ⟨[t] ++ used, rest, hfails.after rfl fun stop' hshare hlt => ?_, _, _,
              hmore.close, fun least => .of_atom (.parens s) ?_ (by rw [AtomTree.expr])⟩
            · obtain ⟨u, others, rfl, hkind, hshare⟩ := hshare.exists_cons (Nat.lt_succ_of_lt hlt)
              refine ⟨others, hshare, fun _ herror => ?_⟩
              rw [readOperand_parens (hkind ▸ hk), herror]
              rfl
            · simp [AtomTree.kinds, hkinds, hk]
          · rcases bind_eq_error hclosing with hclosing | ⟨_, _, heq⟩
            · have hlen := length_lt_of_readExpression hexpression
              obtain ⟨used, rfl, ⟨s, hkinds, rfl⟩, -⟩ := derives_of_readExpression hexpression
              have hfails := failsAt_readClosing hclosing
              refine ⟨t :: used ++ [], behind, hfails.after rfl fun stop' hshare hlt => ?_, _, _,
                completion_paren, fun least => .of_atom (.parens s) ?_ (by rw [AtomTree.expr])⟩
              · obtain ⟨u, others, rfl, hkind, hshare⟩ :=
                  hshare.exists_cons (Nat.lt_succ_of_lt (Nat.lt_trans hlt hlen))
                obtain ⟨behind', hexpression', hshare'⟩ :=
                  readExpression_along hexpression hshare hlt stop'
                refine ⟨behind', hshare', fun _ herror => ?_⟩
                rw [readOperand_parens (hkind ▸ hk), hexpression']
                show (readClosing stop' behind').bind _ = _
                rw [herror]
                rfl
              · simp [AtomTree.kinds, hkinds, hk]
            · cases heq
      | name name =>
          by_cases hcall : ∃ v tokens', tokens = v :: tokens' ∧ v.kind = .leftParen
          · obtain ⟨v, tokens', rfl, hv⟩ := hcall
            rw [readOperand_call hk hv] at h
            rcases bind_eq_error h with harguments | ⟨_, _, heq⟩
            · obtain ⟨used, rest, hfails, more, a, hmore, hkinds⟩ :=
                failsAt_readArguments name harguments
              refine ⟨[t, v] ++ used, rest, hfails.after rfl fun stop' hshare hlt => ?_, _, _,
                hmore, fun least => .of_atom a ?_ rfl⟩
              · obtain ⟨u, others, rfl, hkind, hshare⟩ :=
                  hshare.exists_cons (Nat.lt_succ_of_lt (Nat.lt_succ_of_lt hlt))
                obtain ⟨w, others, rfl, hkind', hshare⟩ :=
                  hshare.exists_cons (Nat.lt_succ_of_lt hlt)
                refine ⟨others, hshare, fun _ herror => ?_⟩
                rw [readOperand_call (hkind ▸ hk) (hkind' ▸ hv), herror]
                rfl
              · simp [hkinds, hk, hv]
            · cases heq
          · have hname : ∀ v tokens', tokens = v :: tokens' → v.kind ≠ .leftParen :=
              fun v tokens' heq hv => hcall ⟨v, tokens', heq, hv⟩
            rw [readOperand_name hk hname] at h
            cases h
      | rightParen | comma | doubleStar | star | slash | caret | endOfInput =>
          have hother : startsOperand t.kind = false := by rw [hk]; rfl
          rw [readOperand_other hother] at h
          cases h
          refine ⟨[], t :: tokens, ⟨rfl, ⟨_, rfl⟩, fun stop' hshare hlt => ?_⟩,
            _, _, completion_name, hname⟩
          obtain ⟨u, others, rfl, hkind, -⟩ := hshare.exists_cons hlt
          exact ⟨_, readOperand_other (hkind ▸ hother)⟩
  termination_by (tokens.length, 1)

/-- What completes the arguments completes the call. -/
theorem failsAt_readArguments (name : String) {tokens : List Token} {error : ParseError}
    (h : readArguments stop tokens = .error error) :
    ∃ used rest, FailsAt readArguments stop tokens error used rest ∧
      ∃ more, ∃ a : AtomTree, Completion more ∧
        a.kinds = .name name :: .leftParen :: (used.map Token.kind ++ more) := by
  by_cases hclose : ∃ t tokens', tokens = t :: tokens' ∧ t.kind = .rightParen
  · obtain ⟨t, tokens', rfl, ht⟩ := hclose
    rw [readArguments_paren ht] at h
    cases h
  · have hrow : ∀ t tokens', tokens = t :: tokens' → t.kind ≠ .rightParen :=
      fun t tokens' heq ht => hclose ⟨t, tokens', heq, ht⟩
    rw [readArguments_row hrow] at h
    obtain ⟨used, rest, hfails, more, row, hmore, hkinds⟩ := failsAt_readRow h
    refine ⟨[] ++ used, rest, hfails.after rfl fun stop' hshare hlt => ?_, more, .call name row,
      hmore, ?_⟩
    · have hothers := hshare.forall_head (p := (· ≠ .rightParen)) hlt hrow
      exact ⟨_, hshare, fun _ herror => by rw [readArguments_row hothers, herror]⟩
    · rw [AtomTree.kinds, hkinds]
      rfl
  termination_by (tokens.length, 4)

/-- A row is completed up to its closing parenthesis. -/
theorem failsAt_readRow {tokens : List Token} {error : ParseError}
    (h : readRow stop tokens = .error error) :
    ∃ used rest, FailsAt readRow stop tokens error used rest ∧
      ∃ more, ∃ row : RowTree, Completion more ∧
        row.kinds ++ [.rightParen] = used.map Token.kind ++ more := by
  cases hexpression : readExpression stop 0 tokens with
  | error error' =>
      rw [readRow_error hexpression] at h
      cases h
      obtain ⟨used, rest, hfails, more, e, hmore, s, hkinds, -⟩ :=
        failsAt_readExpression hexpression
      refine ⟨[] ++ used, rest, hfails.after rfl fun stop' hshare _ => ?_, _, .last s, hmore.close,
        ?_⟩
      · exact ⟨_, hshare, fun _ herror => readRow_error herror⟩
      · rw [RowTree.kinds, hkinds, List.append_assoc]
        rfl
  | ok r =>
      obtain ⟨first, behind⟩ := r
      have hlen := length_lt_of_readExpression hexpression
      obtain ⟨used, rfl, ⟨s, hkinds, rfl⟩, -⟩ := derives_of_readExpression hexpression
      by_cases hcomma : ∃ t behind', behind = t :: behind' ∧ t.kind = .comma
      · obtain ⟨t, behind, rfl, ht⟩ := hcomma
        rw [readRow_comma hexpression ht] at h
        have hlen' : behind.length < (used ++ t :: behind).length := Nat.lt_of_succ_lt hlen
        rcases bind_eq_error h with hrow | ⟨_, _, heq⟩
        · obtain ⟨used', rest, hfails, more, row, hmore, hrowKinds⟩ := failsAt_readRow hrow
          refine ⟨(used ++ [t]) ++ used', rest, hfails.after (by simp) fun stop' hshare hlt => ?_,
            more, .more s row, hmore, ?_⟩
          · have hlt' : _ < (t :: behind).length := Nat.lt_succ_of_lt hlt
            obtain ⟨behind', hexpression', hshare'⟩ :=
              readExpression_along hexpression hshare hlt' stop'
            obtain ⟨u, behind', rfl, hkind, hshare'⟩ := hshare'.exists_cons hlt'
            refine ⟨behind', hshare', fun _ herror => ?_⟩
            rw [readRow_comma hexpression' (hkind ▸ ht), herror]
            rfl
          · simp [RowTree.kinds, hkinds, hrowKinds, ht]
        · cases heq
      · have hlast : ∀ t behind', behind = t :: behind' → t.kind ≠ .comma :=
          fun t behind' heq ht => hcomma ⟨t, behind', heq, ht⟩
        rw [readRow_last hexpression hlast] at h
        rcases bind_eq_error h with hclosing | ⟨_, _, heq⟩
        · have hfails := failsAt_readClosing hclosing
          refine ⟨used ++ [], behind, hfails.after rfl fun stop' hshare hlt => ?_, _, .last s,
            completion_paren, ?_⟩
          · obtain ⟨behind', hexpression', hshare'⟩ :=
              readExpression_along hexpression hshare hlt stop'
            have hlast' := hshare'.forall_head (p := (· ≠ .comma)) hlt hlast
            refine ⟨behind', hshare', fun _ herror => ?_⟩
            rw [readRow_last hexpression' hlast', herror]
            rfl
          · rw [RowTree.kinds, hkinds, List.append_nil]
        · cases heq
  termination_by (tokens.length, 3)

end

end Parser

end SymbolicRegression
