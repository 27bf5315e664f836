import SymbolicRegression.Proofs.Parsing.Derivations
import SymbolicRegression.Proofs.Parsing.Failures
import SymbolicRegression.Proofs.Parsing.Spellings

/-!
# Errors stand at the earliest place

A text that is split into tokens but is no expression is reported at one token, or at its end. The
place is the earliest one there is: the tokens in front of it begin an expression, and no expression
begins with them and the token that is reported. Both halves are about expressions that are written
out as texts, not only about rows of tokens, so the tokens that complete the beginning must be ones
that can be written.

There are two ways to get stuck. A reader may have failed, and what it was reading can be completed
as `failsAt_readExpression` says. Or a whole expression was read and there are tokens behind it.
Then every operator loop has given up at the first of these, and what was read can go on with a sum.
-/

namespace SymbolicRegression

namespace Lexer

variable {cs : List Char} {position : Nat}

/-- Splitting a text only ever fails at a character. -/
theorem tokensFrom_ne_empty : tokensFrom position cs ≠ .error .empty := by
  induction position, cs using tokensFrom.induct
  case case1 position =>
    rw [tokensFrom]
    exact fun h => by cases h
  case case2 position c cs hspace ih =>
    rw [tokensFrom, if_pos hspace]
    exact ih
  case case3 position c cs hspace hnone =>
    rw [tokensFrom, if_neg hspace, hnone]
    exact fun h => by cases h
  case case4 position c cs hspace kind n hlongest stop tail htail _ =>
    rw [tokensFrom, if_neg hspace, hlongest]
    simp only [stop] at htail
    simp only [htail]
    exact fun h => by cases h
  case case5 position c cs hspace kind n hlongest stop e herror ih =>
    rw [tokensFrom, if_neg hspace, hlongest]
    simp only [stop] at herror ih
    simp only [herror]
    rw [herror] at ih
    exact fun h => ih (congrArg Except.error (Except.error.inj h))

/-- The texts without a token are those of characters that separate tokens. -/
theorem tokensFrom_eq_nil_iff :
    tokensFrom position cs = .ok [] ↔ ∀ c ∈ cs, isSpace c = true := by
  constructor
  · intro h
    have hkinds : ([] : List Token).map Token.kind = [] → ∀ c ∈ cs, isSpace c = true := by
      refine tokensFrom_induction
        (motive := fun cs kinds => kinds = [] → ∀ c ∈ cs, isSpace c = true)
        (fun _ => List.forall_mem_nil _) ?_ ?_ h
      · exact fun c cs kinds hspace ih hkinds => List.forall_mem_cons.mpr ⟨hspace, ih hkinds⟩
      · exact fun c cs kind n kinds _ _ _ hkinds => absurd hkinds (List.cons_ne_nil _ _)
    exact hkinds rfl
  · intro h
    induction cs generalizing position with
    | nil => rw [tokensFrom]
    | cons c cs ih =>
        obtain ⟨hspace, h⟩ := List.forall_mem_cons.mp h
        rw [tokensFrom, if_pos hspace]
        exact ih h

end Lexer

namespace Parser

open Grammar

variable {source : String} {stop : Token} {tokens used rest : List Token} {error : ParseError}

/-! ## Rows of tokens -/

theorem readExpression_of_kinds {s : SumTree} (h : s.kinds = tokens.map Token.kind) :
    readExpression stop 0 tokens = .ok (s.expr, []) :=
  whole_eq_ok.mp (whole_eq_ok_iff.mpr ⟨s, h, rfl⟩)

/-- The tokens `used` begin an expression, but none begins with them and the first of `rest`. -/
structure Stuck (used rest : List Token) : Prop where
  completion : ∃ (more : List TokenKind) (s : SumTree), more ≠ [] ∧
    (∀ kind ∈ more, Lexer.Spellable kind) ∧ s.kinds = used.map Token.kind ++ more
  deadEnd : ∀ t behind, rest = t :: behind → ∀ (more : List TokenKind) (s : SumTree),
    s.kinds ≠ used.map Token.kind ++ t.kind :: more

/-- A row of tokens of the given kinds behind some tokens. -/
theorem exists_row {t : Token} {more : List TokenKind} {s : SumTree}
    (h : s.kinds = used.map Token.kind ++ t.kind :: more) (behind : List Token) :
    ∃ others, Along behind (used ++ t :: behind) others ∧ s.kinds = others.map Token.kind := by
  let row := more.map fun kind => (⟨kind, 0, 0⟩ : Token)
  refine ⟨used ++ t :: row, ?_, ?_⟩
  · have hfront : (used ++ [t]).map Token.kind = (used ++ [t]).map Token.kind := rfl
    have halong := Along.of_map_eq hfront behind row
    rwa [List.append_assoc, List.append_assoc] at halong
  · have hrow : row.map Token.kind = more := by
      rw [List.map_map]
      exact List.map_id more
    rw [h, List.map_append, List.map_cons, hrow]

/-- Where a reader has failed. -/
theorem stuck_of_failsAt {e : Expr Float} {more : List TokenKind}
    (hfails : FailsAt (readExpression · 0) stop tokens error used rest)
    (hmore : Completion more) (hderives : Derives 0 (used.map Token.kind ++ more) e) :
    Stuck used rest where
  completion := by
    obtain ⟨s, hkinds, -⟩ := hderives
    refine ⟨more, s, hmore.ne_nil, fun kind hkind => ?_, hkinds⟩
    rcases hmore.kinds kind hkind with rfl | rfl
    · exact Lexer.spellable_name
    · exact Lexer.spellable_rightParen
  deadEnd := by
    rintro t behind rfl more s hkinds
    obtain ⟨others, halong, hothers⟩ := exists_row hkinds behind
    rw [← hfails.split] at halong
    obtain ⟨error', herror⟩ := hfails.again stop halong (Nat.lt_succ_self _)
    rw [readExpression_of_kinds hothers] at herror
    cases herror

/-- Where an expression has been read and there are tokens behind it. -/
theorem stuck_of_readExpression {e : Expr Float} {t : Token} {behind : List Token}
    (h : readExpression stop 0 (used ++ t :: behind) = .ok (e, t :: behind))
    (hderives : Derives 0 (used.map Token.kind) e) : Stuck used (t :: behind) where
  completion := by
    obtain ⟨s, hkinds, -⟩ := hderives
    obtain ⟨s', hkinds', -⟩ := s.exists_snoc .plus (.mk (.power (.bare (.name "x"))) .done)
    refine ⟨[.plus, .name "x"], s', List.cons_ne_nil _ _, ?_, ?_⟩
    · exact List.forall_mem_cons.mpr ⟨Lexer.spellable_plus, List.forall_mem_singleton.mpr
        Lexer.spellable_name⟩
    · rw [hkinds', hkinds]
      simp [ProductTree.kinds, ProductTail.kinds, SignedTree.kinds, PowerTree.kinds,
        AtomTree.kinds, Sign.kind]
  deadEnd := by
    rintro t behind ⟨⟩ more s hkinds
    obtain ⟨others, halong, hothers⟩ := exists_row hkinds behind
    -- the same expression is read from the other row, and leaves that token behind there as well
    obtain ⟨rest, hread, hrest⟩ := readExpression_along h halong (Nat.lt_succ_self _) stop
    obtain ⟨u, behind', rfl, -⟩ := hrest.exists_cons (Nat.lt_succ_self _)
    rw [readExpression_of_kinds hothers] at hread
    cases hread

theorem whole_eq_error (hne : tokens ≠ []) (h : whole stop tokens = .error error) :
    readExpression stop 0 tokens = .error error ∨
      ∃ e t behind, readExpression stop 0 tokens = .ok (e, t :: behind) ∧
        error = unexpected stop TokenKind.endOfInput.describe (t :: behind) := by
  cases tokens with
  | nil => exact absurd rfl hne
  | cons t tokens =>
      rw [whole] at h
      rw [readExpression]
      cases hread : expression stop 0 (t :: tokens) with
      | error e =>
          rw [hread] at h
          exact .inl (congrArg Except.error (Except.error.inj h))
      | ok r =>
          obtain ⟨e, rest, hlt⟩ := r
          rw [hread] at h
          cases rest with
          | nil => cases h
          | cons u behind =>
              cases h
              exact .inr ⟨e, u, behind, rfl, rfl⟩

/-- A row of tokens that is no expression is reported where the parser gets stuck. -/
theorem exists_stuck_of_whole (hne : tokens ≠ []) (h : whole stop tokens = .error error) :
    ∃ used rest, tokens = used ++ rest ∧ (∃ expected, error = unexpected stop expected rest) ∧
      Stuck used rest := by
  rcases whole_eq_error hne h with hread | ⟨e, t, behind, hread, rfl⟩
  · obtain ⟨used, rest, hfails, more, e, hmore, hderives⟩ := failsAt_readExpression hread
    exact ⟨used, rest, hfails.split, hfails.report, stuck_of_failsAt hfails hmore hderives⟩
  · obtain ⟨used, rfl, hderives, -⟩ := derives_of_readExpression hread
    exact ⟨used, t :: behind, rfl, ⟨_, rfl⟩, stuck_of_readExpression hread hderives⟩

/-! ## Texts -/

/-- Some text is split into tokens of these kinds, and is read as an expression. -/
def Accepted (kinds : List TokenKind) : Prop :=
  ∃ text tokens e, tokenize text = .ok tokens ∧ tokens.map Token.kind = kinds ∧ parse text = .ok e

/-- The tokens that begin in front of a byte. -/
def tokensBefore (position : Nat) (tokens : List Token) : List Token :=
  tokens.filter (·.start < position)

theorem exists_derivation_of_accepted {kinds : List TokenKind} (h : Accepted kinds) :
    ∃ s : SumTree, s.kinds = kinds := by
  obtain ⟨text, tokens, e, htokens, rfl, hparse⟩ := h
  obtain ⟨tokens', htokens', s, hkinds, -⟩ := tokens_of_parse hparse
  obtain rfl : tokens' = tokens := Except.ok.inj (htokens'.symm.trans htokens)
  exact ⟨s, hkinds⟩

theorem exists_accepted_of_stuck (htokens : tokenize source = .ok (used ++ rest))
    (h : Stuck used rest) : ∃ more, more ≠ [] ∧ Accepted (used.map Token.kind ++ more) := by
  obtain ⟨more, s, hmore, hspellable, hkinds⟩ := h.completion
  have hused : ∀ kind ∈ used.map Token.kind, Lexer.Spellable kind := by
    intro kind hkind
    refine Lexer.spellable_of_tokensFrom htokens kind ?_
    rw [List.map_append]
    exact List.mem_append_left _ hkind
  have hall : ∀ kind ∈ s.kinds, Lexer.Spellable kind := by
    rw [hkinds]
    exact List.forall_mem_append.mpr ⟨hused, hspellable⟩
  obtain ⟨text, tokens, htokens, hkinds', hparse⟩ := exists_text_of_spellable hall
  exact ⟨more, hmore, text, tokens, s.expr, htokens, hkinds'.trans hkinds, hparse⟩

theorem not_accepted_of_stuck {t : Token} {behind : List Token} (h : Stuck used (t :: behind))
    (more : List TokenKind) : ¬Accepted (used.map Token.kind ++ t.kind :: more) := by
  intro haccepted
  obtain ⟨s, hkinds⟩ := exists_derivation_of_accepted haccepted
  exact h.deadEnd t behind rfl more s hkinds

theorem not_accepted_of_whole (h : whole stop tokens = .error error) :
    ¬Accepted (tokens.map Token.kind) := by
  intro haccepted
  obtain ⟨s, hkinds⟩ := exists_derivation_of_accepted haccepted
  rw [whole_eq_ok_iff.mpr ⟨s, hkinds, rfl⟩] at h
  cases h

theorem tokensBefore_endOf (h : tokenize source = .ok tokens) :
    tokensBefore source.utf8ByteSize tokens = tokens :=
  List.filter_eq_self.mpr fun t ht => decide_eq_true (Lexer.start_lt_of_tokenize h t ht)

theorem tokensBefore_start {t : Token} {behind : List Token}
    (h : tokenize source = .ok (used ++ t :: behind)) :
    tokensBefore t.start (used ++ t :: behind) = used := by
  obtain ⟨-, hbehind, hused⟩ := List.pairwise_append.mp (Lexer.pairwise_start_of_tokenize h)
  have hlt : ∀ s ∈ used, s.start < t.start := fun s hs => hused s hs t List.mem_cons_self
  have hge : ∀ u ∈ t :: behind, ¬u.start < t.start :=
    List.forall_mem_cons.mpr ⟨Nat.lt_irrefl _, fun u hu =>
      Nat.lt_asymm ((List.pairwise_cons.mp hbehind).1 u hu)⟩
  rw [tokensBefore, List.filter_append, List.filter_eq_self.mpr, List.filter_eq_nil_iff.mpr,
    List.append_nil]
  · exact fun u hu => by simpa using hge u hu
  · exact fun s hs => decide_eq_true (hlt s hs)

theorem kind_ne_endOfInput (h : tokenize source = .ok tokens) :
    ∀ t ∈ tokens, t.kind ≠ .endOfInput := by
  intro t ht heq
  have hspellable := Lexer.spellable_of_tokensFrom h t.kind (List.mem_map_of_mem ht)
  exact Lexer.not_spellable_endOfInput (heq ▸ hspellable)

/-- A text is reported as empty exactly if it has no token. -/
theorem parse_eq_empty_iff : parse source = .error .empty ↔ tokenize source = .ok [] := by
  constructor
  · intro h
    rw [parse] at h
    cases htokens : tokenize source with
    | error e =>
        rw [htokens] at h
        exact absurd (htokens.trans (congrArg Except.error (Except.error.inj h)))
          Lexer.tokensFrom_ne_empty
    | ok tokens =>
        rw [htokens] at h
        by_cases hne : tokens = []
        · rw [hne]
        · obtain ⟨used, rest, -, ⟨expected, hreport⟩, -⟩ := exists_stuck_of_whole hne h
          cases hreport
  · intro h
    rw [parse, h]
    rfl

/-- An unexpected token is reported at the earliest place. The tokens in front of it are the
beginning of those of another text that is an expression, and no such text begins with them and the
token that is found; the place is where that token begins, or the end of the text if none is left. A
text is reported as empty exactly if it holds nothing but white space. -/
theorem parse_error_earliest (source : String) :
    (∀ tokens expected found position, tokenize source = .ok tokens →
      parse source = .error (.unexpectedToken expected found position) →
      (∃ more, more ≠ [] ∧
        Accepted ((tokensBefore position tokens).map Token.kind ++ more)) ∧
      ((found = .endOfInput ∧ position = source.utf8ByteSize ∧
          tokensBefore position tokens = tokens ∧ ¬Accepted (tokens.map Token.kind)) ∨
        (found ≠ .endOfInput ∧
          (∃ t behind, tokens = tokensBefore position tokens ++ t :: behind ∧ t.kind = found ∧
            t.start = position) ∧
          ∀ more, ¬Accepted ((tokensBefore position tokens).map Token.kind ++ found :: more)))) ∧
      (parse source = .error .empty ↔ ∀ c ∈ source.toList, Lexer.isSpace c = true) := by
  refine ⟨?_, parse_eq_empty_iff.trans Lexer.tokensFrom_eq_nil_iff⟩
  intro tokens expected found position htokens herror
  have hwhole : whole (Token.endOf source) tokens =
      .error (.unexpectedToken expected found position) := by
    rwa [parse, htokens] at herror
  have hne : tokens ≠ [] := by
    rintro rfl
    cases hwhole
  obtain ⟨used, rest, rfl, ⟨expected', hreport⟩, hstuck⟩ := exists_stuck_of_whole hne hwhole
  obtain ⟨-, hfound, hposition⟩ := ParseError.unexpectedToken.inj hreport
  have haccepted := exists_accepted_of_stuck htokens hstuck
  cases rest with
  | nil =>
      obtain rfl : found = .endOfInput := hfound
      obtain rfl : position = source.utf8ByteSize := hposition
      rw [List.append_nil] at htokens hwhole ⊢
      rw [tokensBefore_endOf htokens]
      exact ⟨haccepted, .inl ⟨rfl, rfl, rfl, not_accepted_of_whole hwhole⟩⟩
  | cons t behind =>
      obtain rfl : found = t.kind := hfound
      obtain rfl : position = t.start := hposition
      have hkind : t.kind ≠ .endOfInput :=
        kind_ne_endOfInput htokens t (List.mem_append_right _ List.mem_cons_self)
      rw [tokensBefore_start htokens]
      exact ⟨haccepted, .inr ⟨hkind, ⟨t, behind, rfl, rfl, rfl⟩, not_accepted_of_stuck hstuck⟩⟩

/-- In `add(x1 x2` a comma or a parenthesis is missing in front of the second name. -/
theorem parse_error_earliest_missingComma :
    ∃ tokens, tokenize "add(x1 x2" = .ok tokens ∧
      parse "add(x1 x2" = .error (.unexpectedToken "')'" (.name "x2") 7) ∧
      (∃ more, more ≠ [] ∧ Accepted ((tokensBefore 7 tokens).map Token.kind ++ more)) ∧
      ∀ more, ¬Accepted ((tokensBefore 7 tokens).map Token.kind ++ .name "x2" :: more) := by
  have htokens : tokenize "add(x1 x2" = .ok [⟨.name "add", 0, 3⟩, ⟨.leftParen, 3, 4⟩,
      ⟨.name "x1", 4, 6⟩, ⟨.name "x2", 7, 9⟩] := by
    cbv
  have hparse : parse "add(x1 x2" = .error (.unexpectedToken "')'" (.name "x2") 7) := by
    cbv
  obtain ⟨hmore, ⟨heq, -⟩ | ⟨-, -, hnone⟩⟩ :=
    (parse_error_earliest "add(x1 x2").1 _ _ _ _ htokens hparse
  · cases heq
  · exact ⟨_, htokens, hparse, hmore, hnone⟩

end Parser

end SymbolicRegression
