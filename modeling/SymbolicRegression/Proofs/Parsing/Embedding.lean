import SymbolicRegression.Proofs.Expansion.BuiltAtoms
import SymbolicRegression.Proofs.Lexing
import SymbolicRegression.Proofs.Parsing.Derivations

/-!
# Texts within texts

A closing parenthesis continues no token, and neither does a blank. So a text that stands in front
of a closing parenthesis is split as it is on its own, and where the text is an expression, it can
be put between the parentheses of a call. What the tokens of a text name are names as the notation
has them, and so are the names in the expression that the text is read as.
-/

namespace SymbolicRegression

namespace Lexer

/-! ## A break behind a token -/

variable {c d : Char} {cs rest : List Char} {kind : TokenKind} {n : Nat}

/-- No token goes on with the character. -/
structure Breaks (d : Char) : Prop where
  name : continuesName d = false
  plus : d ≠ '+'
  minus : d ≠ '-'
  point : d ≠ '.'
  star : d ≠ '*'

theorem breaks_close : Breaks ')' :=
  ⟨by decide, by decide, by decide, by decide, by decide⟩

theorem breaks_space : Breaks ' ' :=
  ⟨by decide, by decide, by decide, by decide, by decide⟩

theorem Breaks.digit (hd : Breaks d) : d.isDigit = false :=
  (Bool.or_eq_false_iff.mp hd.name).2

theorem takeWhile_append_break {p : Char → Bool} (hp : p d = false) (cs rest : List Char) :
    (cs ++ d :: rest).takeWhile p = cs.takeWhile p := by
  rw [List.takeWhile_append]
  split
  · next hall =>
      rw [List.takeWhile_cons_of_neg (by rw [hp]; exact Bool.false_ne_true), List.append_nil]
      exact ((List.takeWhile_prefix p).eq_of_length hall).symm
  · rfl

theorem length_takeWhile_le (p : Char → Bool) (cs : List Char) :
    (cs.takeWhile p).length ≤ cs.length :=
  (List.takeWhile_prefix p).length_le

theorem signLength_le (cs : List Char) : signLength cs ≤ cs.length := by
  rw [signLength.eq_def]
  split <;> simp

theorem signLength_cons (hplus : c ≠ '+') (hminus : c ≠ '-') (cs : List Char) :
    signLength (c :: cs) = 0 := by
  rw [signLength.eq_def]
  split
  · next heq => cases heq; exact absurd rfl hplus
  · next heq => cases heq; exact absurd rfl hminus
  · rfl

theorem signLength_append_break (hd : Breaks d) (cs rest : List Char) :
    signLength (cs ++ d :: rest) = signLength cs := by
  cases cs with
  | nil => exact signLength_cons hd.plus hd.minus rest
  | cons c cs =>
      rw [List.cons_append, signLength.eq_def, signLength.eq_def]
      split
      · next heq => cases heq; rfl
      · next heq => cases heq; rfl
      · next hplus hminus =>
          split
          · next heq => cases heq; exact absurd rfl (hplus _)
          · next heq => cases heq; exact absurd rfl (hminus _)
          · rfl

theorem exponentLength_append_break (hd : Breaks d) (cs rest : List Char) :
    exponentLength (cs ++ d :: rest) = exponentLength cs := by
  cases cs with
  | nil =>
      have hmark : ¬(d == 'e' || d == 'E') = true := by
        rw [Bool.or_eq_true, beq_iff_eq, beq_iff_eq]
        rintro (rfl | rfl)
        all_goals exact absurd hd.name (by decide)
      have hbreak : exponentLength (d :: rest) = 0 := by
        rw [exponentLength, if_neg hmark]
      exact hbreak
  | cons c cs =>
      rw [List.cons_append, exponentLength, exponentLength, signLength_append_break hd]
      dsimp only
      rw [List.drop_append_of_le_length (signLength_le cs), takeWhile_append_break hd.digit]

theorem exponentLength_le (cs : List Char) : exponentLength cs ≤ cs.length := by
  cases cs with
  | nil => exact Nat.le_refl 0
  | cons c cs =>
      have hsign := signLength_le cs
      have hdigits := length_takeWhile_le Char.isDigit (cs.drop (signLength cs))
      rw [List.length_drop] at hdigits
      rw [exponentLength, List.length_cons]
      split
      · dsimp only
        split
        · omega
        · omega
      · omega

/-- The number of characters of a fraction at the start, its point included. -/
def fractionLength : List Char → Nat
  | '.' :: rest => 1 + (rest.takeWhile Char.isDigit).length
  | _ => 0

theorem fractionLength_cons (hpoint : c ≠ '.') (cs : List Char) :
    fractionLength (c :: cs) = 0 := by
  rw [fractionLength.eq_def]
  split
  · next heq => cases heq; exact absurd rfl hpoint
  · rfl

theorem fractionLength_append_break (hd : Breaks d) (cs rest : List Char) :
    fractionLength (cs ++ d :: rest) = fractionLength cs := by
  cases cs with
  | nil => exact fractionLength_cons hd.point rest
  | cons c cs =>
      rw [List.cons_append, fractionLength.eq_def, fractionLength.eq_def]
      split
      · next heq =>
          cases heq
          have hdigits := takeWhile_append_break hd.digit cs rest
          exact congrArg (fun digits => 1 + digits.length) hdigits
      · next hpoint =>
          split
          · next heq => cases heq; exact absurd rfl (hpoint _)
          · rfl

theorem fractionLength_le (cs : List Char) : fractionLength cs ≤ cs.length := by
  rw [fractionLength.eq_def]
  split
  · next rest =>
      have hdigits := length_takeWhile_le Char.isDigit rest
      rw [List.length_cons]
      omega
  · exact Nat.zero_le _

/-- The whole part and the fraction of a number at the start. -/
def mantissaLength (cs : List Char) : Nat :=
  (cs.takeWhile Char.isDigit).length + fractionLength (cs.drop (cs.takeWhile Char.isDigit).length)

theorem numberLength_eq (cs : List Char) :
    numberLength cs =
      if (cs.takeWhile Char.isDigit).length = 0 &&
          fractionLength (cs.drop (cs.takeWhile Char.isDigit).length) ≤ 1 then 0
      else mantissaLength cs + exponentLength (cs.drop (mantissaLength cs)) :=
  rfl

theorem mantissaLength_le (cs : List Char) : mantissaLength cs ≤ cs.length := by
  have hwhole := length_takeWhile_le Char.isDigit cs
  have hfraction := fractionLength_le (cs.drop (cs.takeWhile Char.isDigit).length)
  rw [List.length_drop] at hfraction
  rw [mantissaLength]
  omega

theorem numberLength_append_break (hd : Breaks d) (cs rest : List Char) :
    numberLength (cs ++ d :: rest) = numberLength cs := by
  have hwhole := length_takeWhile_le Char.isDigit cs
  have hmantissa : mantissaLength (cs ++ d :: rest) = mantissaLength cs := by
    rw [mantissaLength, mantissaLength, takeWhile_append_break hd.digit,
      List.drop_append_of_le_length hwhole, fractionLength_append_break hd]
  rw [numberLength_eq, numberLength_eq, hmantissa, takeWhile_append_break hd.digit,
    List.drop_append_of_le_length hwhole, fractionLength_append_break hd,
    List.drop_append_of_le_length (mantissaLength_le cs), exponentLength_append_break hd]

theorem numberLength_le (cs : List Char) : numberLength cs ≤ cs.length := by
  have hmantissa := mantissaLength_le cs
  have hexponent := exponentLength_le (cs.drop (mantissaLength cs))
  rw [List.length_drop] at hexponent
  rw [numberLength_eq]
  split
  · exact Nat.zero_le _
  · omega

/-- The characters that are tokens of the notation, or start one. -/
def isMark (c : Char) : Bool :=
  "(),+-*/^".toList.contains c

/-- A character that is none of the marks. -/
theorem isMark_eq_false {c : Char} (h : ¬(c = '(' ∨ c = ')' ∨ c = ',' ∨ c = '+' ∨ c = '-' ∨ c = '*' ∨
    c = '/' ∨ c = '^')) : isMark c = false := by
  rw [Bool.eq_false_iff]
  intro hmark
  have hmem : c ∈ ['(', ')', ',', '+', '-', '*', '/', '^'] := List.contains_iff_mem.mp hmark
  simp only [List.mem_cons, List.not_mem_nil, or_false] at hmem
  exact h hmem

theorem isMark_of_isDigit {c : Char} (h : c.isDigit = true) : isMark c = false := by
  refine isMark_eq_false ?_
  rintro (rfl | rfl | rfl | rfl | rfl | rfl | rfl | rfl)
  all_goals exact absurd h (by decide)

theorem isMark_of_startsName {c : Char} (h : startsName c = true) : isMark c = false := by
  refine isMark_eq_false ?_
  rintro (rfl | rfl | rfl | rfl | rfl | rfl | rfl | rfl)
  all_goals exact absurd h (by decide)

theorem longest?_of_not_mark {c : Char} (h : isMark c = false) (cs : List Char) :
    longest? (c :: cs) =
      if startsName c then
        some (.name (String.ofList (c :: cs.takeWhile continuesName)),
          (c :: cs.takeWhile continuesName).length)
      else if numberLength (c :: cs) = 0 then none
      else (Numeral.unsigned? ((c :: cs).take (numberLength (c :: cs)))).map
        fun value => (.number value, numberLength (c :: cs)) := by
  unfold longest?
  split
  case h_11 heq =>
    cases heq
    rfl
  all_goals next heq => cases heq <;> exact absurd h (by decide)

/-- Of the marks only the star may be a part of a longer one. -/
theorem longest?_of_mark (h : isMark c = true) (hstar : c ≠ '*') (cs cs' : List Char) :
    longest? (c :: cs) = longest? (c :: cs') := by
  have hmem : c ∈ ['(', ')', ',', '+', '-', '*', '/', '^'] := List.contains_iff_mem.mp h
  simp only [List.mem_cons, List.not_mem_nil, or_false] at hmem
  rcases hmem with rfl | rfl | rfl | rfl | rfl | rfl | rfl | rfl
  case inr.inr.inr.inr.inr.inl => exact absurd rfl hstar
  all_goals rfl

theorem longest?_star (hd : d ≠ '*') (cs : List Char) :
    longest? ('*' :: d :: cs) = some (.star, 1) := by
  unfold longest?
  split
  case h_7 heq =>
    cases heq
    exact absurd rfl hd
  case h_8 => rfl
  case h_11 hstar _ _ heq =>
    cases heq
    exact absurd rfl hstar
  all_goals next heq => cases heq

theorem longest?_append_break (hd : Breaks d) (c : Char) (cs rest : List Char) :
    longest? (c :: (cs ++ d :: rest)) = longest? (c :: cs) := by
  cases hmark : isMark c with
  | false =>
      have hnumber : numberLength (c :: (cs ++ d :: rest)) = numberLength (c :: cs) :=
        numberLength_append_break hd (c :: cs) rest
      have htake : (c :: (cs ++ d :: rest)).take (numberLength (c :: cs)) =
          (c :: cs).take (numberLength (c :: cs)) :=
        List.take_append_of_le_length (numberLength_le (c :: cs))
      rw [longest?_of_not_mark hmark, longest?_of_not_mark hmark,
        takeWhile_append_break hd.name, hnumber, htake]
  | true =>
      by_cases hstar : c = '*'
      · subst hstar
        cases cs with
        | nil => exact longest?_star hd.star rest
        | cons b cs =>
            by_cases hb : b = '*'
            · rw [hb]
              rfl
            · rw [List.cons_append, longest?_star hb, longest?_star hb]
      · exact longest?_of_mark hmark hstar _ _

theorem le_of_longest? (h : longest? cs = some (kind, n)) : n ≤ cs.length := by
  unfold longest? at h
  split at h
  case h_11 c cs _ _ _ _ _ _ _ _ _ =>
    have hname := length_takeWhile_le continuesName cs
    split at h
    · cases h
      rw [List.length_cons, List.length_cons]
      omega
    · dsimp only at h
      split at h
      · cases h
      · obtain ⟨value, -, heq⟩ := Option.map_eq_some_iff.mp h
        cases heq
        exact numberLength_le (c :: cs)
  all_goals cases h
  all_goals simp

theorem isName_of_longest? {name : String} (h : longest? cs = some (.name name, n)) :
    isName name = true := by
  unfold longest? at h
  split at h
  case h_11 c cs _ _ _ _ _ _ _ _ _ =>
    split at h
    · next hstart =>
        cases h
        rw [isName, String.toList_ofList]
        dsimp only
        rw [hstart, Bool.true_and]
        exact List.all_takeWhile
    · dsimp only at h
      split at h
      · cases h
      · obtain ⟨value, -, heq⟩ := Option.map_eq_some_iff.mp h
        cases heq
  all_goals cases h

/-! ## A closing parenthesis behind a text -/

theorem Lexes.blank (hspace : isSpace c = true) {kinds : List TokenKind} (h : Lexes cs kinds) :
    Lexes (c :: cs) kinds := by
  intro position
  obtain ⟨tokens, htokens, hkinds⟩ := h (position + c.utf8Size)
  exact ⟨tokens, by rw [tokensFrom, hspace]; exact htokens, hkinds⟩

/-- What holds of every way to put something in front holds of every text that is split. -/
theorem tokensFrom_spans_induction {motive : Nat → List Char → List Token → Prop}
    (nil : ∀ position, motive position [] [])
    (blank : ∀ position c cs tokens, isSpace c = true → motive (position + c.utf8Size) cs tokens →
      motive position (c :: cs) tokens)
    (token : ∀ position c cs kind n tokens, isSpace c = false →
      longest? (c :: cs) = some (kind, n) →
      motive (position + byteLength ((c :: cs).take n)) (cs.drop (n - 1)) tokens →
      motive position (c :: cs)
        (⟨kind, position, position + byteLength ((c :: cs).take n)⟩ :: tokens)) :
    ∀ {position : Nat} {cs : List Char} {tokens : List Token},
      tokensFrom position cs = .ok tokens → motive position cs tokens := by
  intro position cs tokens h
  induction position, cs using tokensFrom.induct generalizing tokens
  case case1 position =>
    rw [tokensFrom] at h
    cases h
    exact nil position
  case case2 position c cs hspace ih =>
    rw [tokensFrom, if_pos hspace] at h
    exact blank _ _ _ _ hspace (ih h)
  case case3 position c cs hspace hnone =>
    rw [tokensFrom, if_neg hspace, hnone] at h
    cases h
  case case4 position c cs hspace kind n hlongest stop tail htail ih =>
    rw [tokensFrom, if_neg hspace, hlongest] at h
    simp only [stop] at htail ih
    simp only [htail] at h
    cases h
    exact token _ _ _ _ _ _ (Bool.eq_false_iff.mpr hspace) hlongest (ih htail)
  case case5 position c cs hspace kind n hlongest stop e herror _ =>
    rw [tokensFrom, if_neg hspace, hlongest] at h
    simp only [stop] at herror
    simp only [herror] at h
    cases h

/-- The same for the kinds of the tokens, wherever they stand. -/
theorem tokensFrom_induction {motive : List Char → List TokenKind → Prop} (nil : motive [] [])
    (blank : ∀ c cs kinds, isSpace c = true → motive cs kinds → motive (c :: cs) kinds)
    (token : ∀ c cs kind n kinds, isSpace c = false → longest? (c :: cs) = some (kind, n) →
      motive (cs.drop (n - 1)) kinds → motive (c :: cs) (kind :: kinds)) :
    ∀ {position : Nat} {cs : List Char} {tokens : List Token},
      tokensFrom position cs = .ok tokens → motive cs (tokens.map Token.kind) :=
  tokensFrom_spans_induction (motive := fun _ cs tokens => motive cs (tokens.map Token.kind))
    (fun _ => nil) (fun _ c cs _ => blank c cs _) (fun _ c cs kind n _ => token c cs kind n _)

/-- A text in front of a closing parenthesis is split as it is on its own. -/
theorem lexes_append_close {kinds : List TokenKind} (hrest : Lexes rest kinds) {position : Nat}
    {tokens : List Token} (h : tokensFrom position cs = .ok tokens) :
    Lexes (cs ++ ')' :: rest) (tokens.map Token.kind ++ .rightParen :: kinds) := by
  refine tokensFrom_induction
    (motive := fun cs front => Lexes (cs ++ ')' :: rest) (front ++ .rightParen :: kinds))
    hrest.rightParen (fun c cs front hspace ih => ih.blank hspace) ?_ h
  intro c cs kind n front hspace hlongest ih
  have hn : n ≤ cs.length + 1 := le_of_longest? hlongest
  refine .token hspace ((longest?_append_break breaks_close c cs rest).trans hlongest) ?_
  change Lexes ((cs ++ ')' :: rest).drop (n - 1)) _
  rw [List.drop_append_of_le_length (by omega)]
  exact ih

/-- Every name among the tokens is one as the notation has them. -/
def Named (kinds : List TokenKind) : Prop :=
  ∀ name, .name name ∈ kinds → isName name = true

theorem Named.left {front back : List TokenKind} (h : Named (front ++ back)) : Named front :=
  fun name hname => h name (List.mem_append_left back hname)

theorem Named.right {front back : List TokenKind} (h : Named (front ++ back)) : Named back :=
  fun name hname => h name (List.mem_append_right front hname)

theorem Named.tail {kind : TokenKind} {kinds : List TokenKind} (h : Named (kind :: kinds)) :
    Named kinds :=
  fun name hname => h name (List.mem_cons_of_mem kind hname)

theorem named_of_tokensFrom {position : Nat} {tokens : List Token}
    (h : tokensFrom position cs = .ok tokens) : Named (tokens.map Token.kind) := by
  refine tokensFrom_induction (motive := fun _ kinds => Named kinds)
    (fun name hname => by cases hname) (fun _ _ _ _ ih => ih) ?_ h
  intro c cs kind n kinds _ hlongest ih name hname
  rcases List.mem_cons.mp hname with rfl | hname
  · exact isName_of_longest? hlongest
  · exact ih name hname

end Lexer

/-! ## Names in expressions -/

namespace Grammar

open Lexer (Named)

mutual

theorem SumTree.named : ∀ s : SumTree, Named s.kinds → s.expr.Named
  | .mk first others, h => by
      rw [SumTree.kinds] at h
      rw [SumTree.expr]
      exact SumTail.named others (ProductTree.named first h.left) h.right

theorem SumTail.named : ∀ (s : SumTail) {left : Expr Float}, left.Named → Named s.kinds →
    (s.exprFrom left).Named
  | .done, _, hleft, _ => by
      rw [SumTail.exprFrom]
      exact hleft
  | .more sign product others, left, hleft, h => by
      rw [SumTail.kinds] at h
      rw [SumTail.exprFrom]
      exact SumTail.named others ⟨hleft, ProductTree.named product h.tail.left⟩ h.tail.right

theorem ProductTree.named : ∀ p : ProductTree, Named p.kinds → p.expr.Named
  | .mk first others, h => by
      rw [ProductTree.kinds] at h
      rw [ProductTree.expr]
      exact ProductTail.named others (SignedTree.named first h.left) h.right

theorem ProductTail.named : ∀ (p : ProductTail) {left : Expr Float}, left.Named →
    Named p.kinds → (p.exprFrom left).Named
  | .done, _, hleft, _ => by
      rw [ProductTail.exprFrom]
      exact hleft
  | .more scaling factor others, left, hleft, h => by
      rw [ProductTail.kinds] at h
      rw [ProductTail.exprFrom]
      exact ProductTail.named others ⟨hleft, SignedTree.named factor h.tail.left⟩ h.tail.right

theorem SignedTree.named : ∀ f : SignedTree, Named f.kinds → f.expr.Named
  | .sign .plus factor, h => by
      rw [SignedTree.kinds] at h
      rw [SignedTree.expr]
      exact SignedTree.named factor h.tail
  | .sign .minus factor, h => by
      rw [SignedTree.kinds] at h
      rw [SignedTree.expr]
      exact SignedTree.named factor h.tail
  | .power power, h => by
      rw [SignedTree.kinds] at h
      rw [SignedTree.expr]
      exact PowerTree.named power h

theorem PowerTree.named : ∀ p : PowerTree, Named p.kinds → p.expr.Named
  | .bare base, h => by
      rw [PowerTree.kinds] at h
      rw [PowerTree.expr]
      exact AtomTree.named base h
  | .raised base raising exponent, h => by
      rw [PowerTree.kinds] at h
      rw [PowerTree.expr]
      exact ⟨AtomTree.named base h.left, SignedTree.named exponent h.right.tail⟩

theorem AtomTree.named : ∀ a : AtomTree, Named a.kinds → a.expr.Named
  | .number value, _ => by
      rw [AtomTree.expr]
      trivial
  | .name name, h => by
      rw [AtomTree.kinds] at h
      rw [AtomTree.expr]
      exact h name List.mem_cons_self
  | .emptyCall name, h => by
      rw [AtomTree.kinds] at h
      rw [AtomTree.expr]
      exact ⟨h name List.mem_cons_self, trivial⟩
  | .call name row, h => by
      rw [AtomTree.kinds] at h
      rw [AtomTree.expr]
      exact ⟨h name List.mem_cons_self, RowTree.named row h.tail.tail.left⟩
  | .parens sum, h => by
      rw [AtomTree.kinds] at h
      rw [AtomTree.expr]
      exact SumTree.named sum h.tail.left

theorem RowTree.named : ∀ r : RowTree, Named r.kinds → Expr.NamedAll r.exprs
  | .last sum, h => by
      rw [RowTree.kinds] at h
      rw [RowTree.exprs]
      exact ⟨SumTree.named sum h, trivial⟩
  | .more sum others, h => by
      rw [RowTree.kinds] at h
      rw [RowTree.exprs]
      exact ⟨SumTree.named sum h.left, RowTree.named others h.right.tail⟩

end

end Grammar

/-! ## Expressions in calls -/

open Grammar

theorem tokens_of_parse {text : String} {e : Expr Float} (h : parse text = .ok e) :
    ∃ tokens, Lexer.tokensFrom 0 text.toList = .ok tokens ∧
      ∃ s : SumTree, s.kinds = tokens.map Token.kind ∧ s.expr = e := by
  rw [parse, tokenize] at h
  split at h
  · cases h
  · next tokens htokens => exact ⟨tokens, htokens, Parser.whole_eq_ok_iff.mp h⟩

theorem named_of_parse {text : String} {e : Expr Float} (h : parse text = .ok e) : e.Named := by
  obtain ⟨tokens, htokens, s, hs, rfl⟩ := tokens_of_parse h
  exact s.named (hs ▸ Lexer.named_of_tokensFrom htokens)

/-- A text that is split into the tokens of a derivation is read as its expression. -/
theorem parse_eq_ok_of_lexes {text : String} {s : SumTree}
    (h : Lexer.Lexes text.toList s.kinds) : parse text = .ok s.expr := by
  obtain ⟨tokens, htokens, hkinds⟩ := h 0
  rw [parse, tokenize, htokens]
  exact Parser.whole_eq_ok_iff.mpr ⟨s, hkinds.symm, rfl⟩

/-- The product that is a call with one argument. -/
def callOf (f : String) (s : SumTree) : ProductTree :=
  .mk (.power (.bare (.call f (.last s)))) .done

theorem kinds_callOf (f : String) (s : SumTree) :
    (callOf f s).kinds = .name f :: .leftParen :: (s.kinds ++ [.rightParen]) := by
  simp only [callOf, ProductTree.kinds, ProductTail.kinds, SignedTree.kinds, PowerTree.kinds,
    AtomTree.kinds, RowTree.kinds, List.append_nil]

/-- The difference of two calls is read as such, whatever stands in the calls. -/
theorem parse_sub_calls {f a b : String} {left right : Expr Float} (hf : Lexer.isName f = true)
    (ha : parse a = .ok left) (hb : parse b = .ok right) :
    parse (f ++ "(" ++ a ++ ") - " ++ f ++ "(" ++ b ++ ")") =
      .ok (.binary .sub (.call f [left]) (.call f [right])) := by
  obtain ⟨tokens, htokens, s, hs, rfl⟩ := tokens_of_parse ha
  obtain ⟨tokens', htokens', s', hs', rfl⟩ := tokens_of_parse hb
  have hcall : ∀ {cs : List Char} {kinds : List TokenKind}, Lexer.Lexes cs kinds →
      Lexer.Lexes (f.toList ++ '(' :: cs) (.name f :: .leftParen :: kinds) :=
    fun h => .name hf (Lexer.separated_cons (by decide)) h.leftParen
  have hsecond := hcall (Lexer.lexes_append_close Lexer.lexes_nil htokens')
  have hminus : Lexer.Lexes (' ' :: '-' :: ' ' :: (f.toList ++ '(' :: (b.toList ++ [')'])))
      (.minus :: .name f :: .leftParen :: (tokens'.map Token.kind ++ [.rightParen])) :=
    .space (.token (by decide) rfl hsecond.space)
  have hall := hcall (Lexer.lexes_append_close hminus htokens)
  have hkinds : (SumTree.mk (callOf f s) (.more .minus (callOf f s') .done)).kinds =
      .name f :: .leftParen :: (tokens.map Token.kind ++ .rightParen :: .minus :: .name f ::
        .leftParen :: (tokens'.map Token.kind ++ [.rightParen])) := by
    simp [SumTree.kinds, SumTail.kinds, kinds_callOf, hs, hs', Sign.kind]
  have htext : (f ++ "(" ++ a ++ ") - " ++ f ++ "(" ++ b ++ ")").toList =
      f.toList ++ '(' :: (a.toList ++ ')' :: ' ' :: '-' :: ' ' ::
        (f.toList ++ '(' :: (b.toList ++ [')']))) := by
    simp
  rw [← hkinds, ← htext] at hall
  exact parse_eq_ok_of_lexes hall

end SymbolicRegression
