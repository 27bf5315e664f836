import SymbolicRegression.Expr.Lexer

/-!
# Splitting a text into the tokens it was written from

A lexer takes the longest token at each place, so a text that is written token by token is split at
the same places only if no token runs on into the next. The marks of the notation never do, and a
name is safe as long as what follows cannot go on with it. `Lexes` says which kinds of tokens a text
is split into, wherever it stands; there is one lemma for each way to put something in front.
-/

namespace SymbolicRegression

namespace Lexer

/-- Is the text one name and nothing else? -/
def isName (text : String) : Bool :=
  match text.toList with
  | [] => false
  | c :: cs => startsName c && cs.all continuesName

/-- The text is split into tokens of these kinds, at whatever byte it starts. -/
def Lexes (cs : List Char) (kinds : List TokenKind) : Prop :=
  ∀ position, ∃ tokens, tokensFrom position cs = .ok tokens ∧ tokens.map Token.kind = kinds

/-- The text cannot go on with a name that ends in front of it. -/
def Separated (cs : List Char) : Prop :=
  ∀ c rest, cs = c :: rest → continuesName c = false

theorem separated_nil : Separated [] := by
  intro c rest h
  cases h

theorem separated_cons {c : Char} {rest : List Char} (h : continuesName c = false) :
    Separated (c :: rest) := by
  intro c' rest' heq
  cases heq
  exact h

theorem lexes_nil : Lexes [] [] := by
  intro position
  exact ⟨[], by rw [tokensFrom], rfl⟩

theorem Lexes.space {cs : List Char} {kinds : List TokenKind} (h : Lexes cs kinds) :
    Lexes (' ' :: cs) kinds := by
  intro position
  obtain ⟨tokens, htokens, hkinds⟩ := h (position + ' '.utf8Size)
  exact ⟨tokens, by rw [tokensFrom]; exact htokens, hkinds⟩

/-- A token at the start is taken, and the rest is split on its own. -/
theorem Lexes.token {c : Char} {rest : List Char} {kind : TokenKind} {n : Nat}
    {kinds : List TokenKind} (hspace : isSpace c = false)
    (hlongest : longest? (c :: rest) = some (kind, n)) (h : Lexes (rest.drop (n - 1)) kinds) :
    Lexes (c :: rest) (kind :: kinds) := by
  intro position
  obtain ⟨tokens, htokens, hkinds⟩ := h (position + byteLength ((c :: rest).take n))
  refine ⟨⟨kind, position, position + byteLength ((c :: rest).take n)⟩ :: tokens, ?_, ?_⟩
  · rw [tokensFrom, hspace, hlongest]
    simp only [htokens]
    rfl
  · rw [List.map_cons, hkinds]

/-- A character at which no token starts is reported. -/
theorem tokensFrom_eq_error {c : Char} {rest : List Char} (hspace : isSpace c = false)
    (hlongest : longest? (c :: rest) = none) (position : Nat) :
    tokensFrom position (c :: rest) =
      .error (.invalidCharacter (String.ofList [c]) position) := by
  rw [tokensFrom, hspace, hlongest]
  rfl

theorem Lexes.leftParen {cs : List Char} {kinds : List TokenKind} (h : Lexes cs kinds) :
    Lexes ('(' :: cs) (.leftParen :: kinds) :=
  .token rfl rfl h

theorem Lexes.rightParen {cs : List Char} {kinds : List TokenKind} (h : Lexes cs kinds) :
    Lexes (')' :: cs) (.rightParen :: kinds) :=
  .token rfl rfl h

theorem Lexes.comma {cs : List Char} {kinds : List TokenKind} (h : Lexes cs kinds) :
    Lexes (',' :: cs) (.comma :: kinds) :=
  .token rfl rfl h

/-! ## Names -/

theorem isSpace_of_startsName {c : Char} (h : startsName c = true) : isSpace c = false := by
  cases hspace : isSpace c with
  | false => rfl
  | true =>
      simp only [isSpace, Bool.or_eq_true, beq_iff_eq] at hspace
      rcases hspace with (((rfl | rfl) | rfl) | rfl) | rfl
      all_goals exact absurd h (by decide)

theorem startsName_of_isDigit {c : Char} (h : c.isDigit = true) : startsName c = false := by
  have hdigit : 48 ≤ c.toNat ∧ c.toNat ≤ 57 := by
    rw [Char.isDigit, Bool.and_eq_true, decide_eq_true_iff, decide_eq_true_iff] at h
    exact h
  have hle : ∀ d : Char, d ≤ c → d.toNat ≤ c.toNat := fun d hd => hd
  cases hstart : startsName c with
  | false => rfl
  | true =>
      simp only [startsName, Bool.or_eq_true, Bool.and_eq_true, decide_eq_true_iff, beq_iff_eq]
        at hstart
      rcases hstart with (⟨hA, -⟩ | ⟨ha, -⟩) | rfl
      · have : 65 ≤ c.toNat := hle 'A' hA
        omega
      · have : 97 ≤ c.toNat := hle 'a' ha
        omega
      · exact absurd h (by decide)

theorem isSpace_of_isDigit {c : Char} (h : c.isDigit = true) : isSpace c = false := by
  cases hspace : isSpace c with
  | false => rfl
  | true =>
      simp only [isSpace, Bool.or_eq_true, beq_iff_eq] at hspace
      rcases hspace with (((rfl | rfl) | rfl) | rfl) | rfl
      all_goals exact absurd h (by decide)

/-- No mark of the notation starts a name, so a name is looked for where one starts. -/
theorem longest?_of_startsName {c : Char} (h : startsName c = true) (rest : List Char) :
    longest? (c :: rest) =
      some (.name (String.ofList (c :: rest.takeWhile continuesName)),
        (rest.takeWhile continuesName).length + 1) := by
  unfold longest?
  split
  case h_11 =>
    next heq =>
      cases heq
      rw [if_pos h]
      rfl
  all_goals next heq => cases heq <;> exact absurd h (by decide)

theorem takeWhile_append_of_stops {p : Char → Bool} {cs rest : List Char}
    (hcs : ∀ c ∈ cs, p c = true) (hrest : ∀ c cs, rest = c :: cs → p c = false) :
    (cs ++ rest).takeWhile p = cs := by
  rw [List.takeWhile_append_of_pos hcs]
  cases rest with
  | nil => rw [List.takeWhile_nil, List.append_nil]
  | cons c rest =>
      rw [List.takeWhile_cons_of_neg (by simp [hrest c rest rfl]), List.append_nil]

theorem Lexes.name {text : String} {cs : List Char} {kinds : List TokenKind}
    (hname : isName text = true) (hcs : Separated cs) (h : Lexes cs kinds) :
    Lexes (text.toList ++ cs) (.name text :: kinds) := by
  rw [isName] at hname
  split at hname
  · cases hname
  · next c rest heq =>
      obtain ⟨hstart, hrest⟩ := Bool.and_eq_true_iff.mp hname
      have htext : String.ofList (c :: rest) = text := by rw [← heq, String.ofList_toList]
      have htake := takeWhile_append_of_stops (List.all_eq_true.mp hrest) hcs
      rw [heq, List.cons_append]
      refine .token (n := rest.length + 1) (isSpace_of_startsName hstart) ?_ ?_
      · rw [longest?_of_startsName hstart, htake, htext]
      · rw [Nat.add_sub_cancel, List.drop_left]
        exact h

end Lexer

end SymbolicRegression
