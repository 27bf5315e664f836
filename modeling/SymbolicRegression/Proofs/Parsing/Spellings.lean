import SymbolicRegression.Proofs.Parsing.Spans

/-!
# Texts for rows of tokens

A token that a text has been split into is split off again when it stands alone in front of a blank:
the lexer looks behind the end of a token only to find out that it does not go on. So the kinds of
the tokens of any texts can be put together to a row in any order, and there is a text that is split
into that row. Where a derivation has such a row of tokens, it is the parse of a text.
-/

namespace SymbolicRegression

namespace Lexer

/-! ## Cutting a text off behind its first token -/

variable {c : Char} {cs : List Char} {kind : TokenKind} {kinds : List TokenKind} {n : Nat}

theorem takeWhile_take {p : Char → Bool} (h : (cs.takeWhile p).length ≤ n) :
    (cs.take n).takeWhile p = cs.takeWhile p := by
  induction cs generalizing n with
  | nil => rw [List.take_nil]
  | cons c cs ih =>
      cases n with
      | zero => exact (List.eq_nil_of_length_eq_zero (Nat.le_zero.mp h)).symm
      | succ n =>
          rw [List.take_succ_cons]
          cases hc : p c with
          | false =>
              rw [List.takeWhile_cons_of_neg (by simp [hc]),
                List.takeWhile_cons_of_neg (by simp [hc])]
          | true =>
              rw [List.takeWhile_cons_of_pos hc] at h ⊢
              rw [List.takeWhile_cons_of_pos hc, ih (Nat.le_of_succ_le_succ h)]

theorem signLength_take (h : signLength cs ≤ n) : signLength (cs.take n) = signLength cs := by
  cases n with
  | zero =>
      rw [Nat.le_zero.mp h]
      rfl
  | succ n =>
      cases cs with
      | nil => rfl
      | cons c cs =>
          by_cases hplus : c = '+'
          · subst hplus
            rfl
          · by_cases hminus : c = '-'
            · subst hminus
              rfl
            · rw [List.take_succ_cons, signLength_cons hplus hminus, signLength_cons hplus hminus]

theorem fractionLength_take (h : fractionLength cs ≤ n) :
    fractionLength (cs.take n) = fractionLength cs := by
  cases n with
  | zero =>
      rw [Nat.le_zero.mp h]
      rfl
  | succ n =>
      cases cs with
      | nil => rfl
      | cons c cs =>
          by_cases hpoint : c = '.'
          · subst hpoint
            have hdigits : (cs.takeWhile Char.isDigit).length ≤ n := by
              rw [fractionLength] at h
              omega
            rw [List.take_succ_cons, fractionLength, fractionLength, takeWhile_take hdigits]
          · rw [List.take_succ_cons, fractionLength_cons hpoint, fractionLength_cons hpoint]

theorem exponentLength_cons (hmark : (c == 'e' || c == 'E') = true) (cs : List Char) :
    exponentLength (c :: cs) =
      if ((cs.drop (signLength cs)).takeWhile Char.isDigit).isEmpty then 0
      else signLength cs + ((cs.drop (signLength cs)).takeWhile Char.isDigit).length + 1 := by
  rw [exponentLength, if_pos hmark]
  dsimp only
  rw [Nat.add_assoc, Nat.add_comm 1]

/-- The exponent is cut off behind its last digit; without a digit there would be no exponent. -/
theorem exponentLength_take (cs : List Char) :
    exponentLength (cs.take (exponentLength cs)) = exponentLength cs := by
  cases cs with
  | nil => rfl
  | cons c cs =>
      by_cases hmark : (c == 'e' || c == 'E') = true
      · have hlength := exponentLength_cons hmark cs
        generalize hdigits : (cs.drop (signLength cs)).takeWhile Char.isDigit = digits at hlength
        cases hempty : digits.isEmpty with
        | true =>
            rw [hlength, hempty]
            rfl
        | false =>
            rw [hempty, if_neg Bool.false_ne_true] at hlength
            have htake : ((cs.drop (signLength cs)).take digits.length).takeWhile Char.isDigit =
                digits := by
              rw [takeWhile_take (by rw [hdigits]), hdigits]
            rw [hlength, List.take_succ_cons, exponentLength_cons hmark,
              signLength_take (Nat.le_add_right _ _), List.drop_take, Nat.add_sub_cancel_left,
              htake, hempty, if_neg Bool.false_ne_true]
      · have hzero : exponentLength (c :: cs) = 0 := by
          rw [exponentLength, if_neg hmark]
        rw [hzero]
        rfl

/-- A number is cut off behind its last character. -/
theorem numberLength_take (cs : List Char) :
    numberLength (cs.take (numberLength cs)) = numberLength cs := by
  generalize hlength : numberLength cs = n
  rw [numberLength_eq] at hlength
  split at hlength
  · subst hlength
    rfl
  · next hnumber =>
      have hmantissa : mantissaLength cs ≤ n := by omega
      have hwhole : (cs.takeWhile Char.isDigit).length ≤ n := by
        rw [mantissaLength] at hmantissa
        omega
      have hfraction : fractionLength (cs.drop (cs.takeWhile Char.isDigit).length) ≤
          n - (cs.takeWhile Char.isDigit).length := by
        rw [mantissaLength] at hmantissa
        omega
      have hexponent : n - mantissaLength cs = exponentLength (cs.drop (mantissaLength cs)) := by
        omega
      have htake : mantissaLength (cs.take n) = mantissaLength cs := by
        rw [mantissaLength, takeWhile_take hwhole, List.drop_take, fractionLength_take hfraction,
          mantissaLength]
      rw [numberLength_eq, htake, takeWhile_take hwhole, List.drop_take,
        fractionLength_take hfraction, if_neg hnumber, List.drop_take, hexponent,
        exponentLength_take]
      exact hlength

/-- A token is found again in the text that is cut off behind it. -/
theorem longest?_take (h : longest? (c :: cs) = some (kind, n + 1)) :
    longest? (c :: cs.take n) = some (kind, n + 1) := by
  cases hmark : isMark c with
  | false =>
      rw [longest?_of_not_mark hmark] at h ⊢
      split at h
      · next hstart =>
          cases h
          rw [if_pos hstart, takeWhile_take (Nat.le_refl _)]
          rfl
      · next hstart =>
          split at h
          · cases h
          · next hnumber =>
              obtain ⟨value, hvalue, heq⟩ := Option.map_eq_some_iff.mp h
              obtain ⟨rfl, hn⟩ := Prod.mk.inj heq
              have htake : numberLength (c :: cs.take n) = n + 1 := by
                have hcut := numberLength_take (c :: cs)
                rwa [hn] at hcut
              rw [hn] at hvalue
              rw [if_neg hstart, htake, if_neg (Nat.succ_ne_zero n), ← List.take_succ_cons,
                List.take_take, Nat.min_self, hvalue]
              rfl
  | true =>
      by_cases hstar : c = '*'
      · subst hstar
        cases cs with
        | nil =>
            cases h
            rfl
        | cons b cs =>
            by_cases hb : b = '*'
            · subst hb
              cases h
              rfl
            · rw [longest?_star hb] at h
              cases h
              rfl
      · exact (longest?_of_mark hmark hstar _ _).trans h

/-! ## Spellings -/

/-- Some text is nothing but a token of that kind. -/
def Spellable (kind : TokenKind) : Prop :=
  ∃ c cs, isSpace c = false ∧ longest? (c :: cs) = some (kind, cs.length + 1)

theorem spellable_name : Spellable (.name "x") :=
  ⟨'x', [], rfl, by rfl⟩

theorem spellable_rightParen : Spellable .rightParen :=
  ⟨')', [], rfl, rfl⟩

theorem spellable_plus : Spellable .plus :=
  ⟨'+', [], rfl, rfl⟩

/-- No text is the end of input. -/
theorem not_spellable_endOfInput : ¬Spellable .endOfInput := by
  rintro ⟨c, cs, -, h⟩
  unfold longest? at h
  split at h
  case h_11 =>
    split at h
    · cases h
    · dsimp only at h
      split at h
      · cases h
      · obtain ⟨value, -, heq⟩ := Option.map_eq_some_iff.mp h
        cases heq
  all_goals cases h

/-- Every token that a text has been split into is one that can be written on its own. -/
theorem spellable_of_tokensFrom {position : Nat} {tokens : List Token}
    (h : tokensFrom position cs = .ok tokens) :
    ∀ kind ∈ tokens.map Token.kind, Spellable kind := by
  refine tokensFrom_induction (motive := fun _ kinds => ∀ kind ∈ kinds, Spellable kind)
    (List.forall_mem_nil _) (fun _ _ _ _ ih => ih) ?_ h
  intro c cs kind n kinds hspace hlongest ih
  obtain ⟨m, rfl⟩ : ∃ m, n = m + 1 := ⟨n - 1, by have := pos_of_longest? hlongest; omega⟩
  have hm : m + 1 ≤ (c :: cs).length := le_of_longest? hlongest
  refine List.forall_mem_cons.mpr ⟨⟨c, cs.take m, hspace, ?_⟩, ih⟩
  rw [List.length_take_of_le (Nat.le_of_succ_le_succ hm)]
  exact longest?_take hlongest

/-- A row of tokens that can be written one by one can be written with blanks between them. -/
theorem exists_lexes (h : ∀ kind ∈ kinds, Spellable kind) : ∃ cs, Lexes cs kinds := by
  induction kinds with
  | nil => exact ⟨[], lexes_nil⟩
  | cons kind kinds ih =>
      obtain ⟨⟨c, cs, hspace, hlongest⟩, h⟩ := List.forall_mem_cons.mp h
      obtain ⟨rest, hrest⟩ := ih h
      have hlongest : longest? (c :: (cs ++ ' ' :: rest)) = some (kind, cs.length + 1) :=
        (longest?_append_break breaks_space c cs rest).trans hlongest
      refine ⟨c :: (cs ++ ' ' :: rest), .token hspace hlongest ?_⟩
      rw [Nat.add_sub_cancel, List.drop_left]
      exact hrest.space

end Lexer

/-- A derivation whose tokens can be written one by one is what some text is read as. -/
theorem exists_text_of_spellable {s : Grammar.SumTree}
    (h : ∀ kind ∈ s.kinds, Lexer.Spellable kind) :
    ∃ text tokens, tokenize text = .ok tokens ∧ tokens.map Token.kind = s.kinds ∧
      parse text = .ok s.expr := by
  obtain ⟨cs, hlexes⟩ := Lexer.exists_lexes h
  rw [← String.toList_ofList (l := cs)] at hlexes
  obtain ⟨tokens, htokens, hkinds⟩ := hlexes 0
  exact ⟨String.ofList cs, tokens, htokens, hkinds, parse_eq_ok_of_lexes hlexes⟩

end SymbolicRegression
