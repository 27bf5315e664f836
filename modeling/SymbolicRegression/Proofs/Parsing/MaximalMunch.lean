import SymbolicRegression.Proofs.Parsing.LongestWords

/-!
# Maximal munch

A text is split into the longest words, one behind the other, and nothing of it gets lost: what the
tokens leave out is white space, and a text that cannot be split is reported at the first place where
it cannot. This is said about bytes of the whole text, while the lexer only sees what is left of it.
So the statement that goes through the induction, `ReadsOn`, is about a place in a text of which the
part in front is kept.

That the longest word is taken does not depend on what has been read before, and that the tokens are
in order is known already. What is new at each step is that the character or the word at the front is
accounted for.
-/

namespace SymbolicRegression

namespace Lexer

variable {c : Char} {cs : List Char} {kind : TokenKind} {n : Nat}

/-! ## The tokens of a text -/

/-- The token covers the bytes of a word of the text that is spelled as it is, and of all words that
begin at the same place, none that any pattern matches is longer. -/
def Munched (text : List Char) (t : Token) : Prop :=
  ∃ front word back, text = front ++ (word ++ back) ∧ byteLength front = t.start ∧
    byteLength (front ++ word) = t.stop ∧ t.kind.Spelled word ∧
    ∀ kind longer, longer <+: word ++ back → TokenKind.Matches kind longer →
      longer.length ≤ word.length

/-- Between two bytes the text is made of these tokens, one behind the other, and white space. -/
structure Splits (text : List Char) (start stop : Nat) (tokens : List Token) : Prop
    extends Spaced start tokens where
  within : ∀ t ∈ tokens, t.stop ≤ stop
  longest : ∀ t ∈ tokens, Munched text t
  blank : ∀ front c back, text = front ++ c :: back → start ≤ byteLength front →
    byteLength front < stop →
    (∀ t ∈ tokens, byteLength front < t.start ∨ t.stop ≤ byteLength front) → isSpace c = true

/-- At that byte there is a character that is no white space and at which no token starts. -/
def StuckAt (text : List Char) (position : Nat) (e : ParseError) : Prop :=
  ∃ front c back, text = front ++ c :: back ∧ byteLength front = position ∧
    e = .invalidCharacter (String.ofList [c]) position ∧ isSpace c = false ∧
    ∀ kind word, word <+: c :: back → ¬TokenKind.Matches kind word

theorem byteLength_cons (c : Char) (cs : List Char) :
    byteLength (c :: cs) = c.utf8Size + byteLength cs :=
  rfl

/-- Two characters of a text are the same, or one of them stands behind the other. -/
theorem eq_or_behind {front back front' back' : List Char} {c c' : Char}
    (h : front ++ c :: back = front' ++ c' :: back')
    (hle : byteLength front ≤ byteLength front') :
    c = c' ∧ byteLength front = byteLength front' ∨
      byteLength front + c.utf8Size ≤ byteLength front' := by
  rcases List.append_eq_append_iff.mp h with ⟨between, rfl, hrest⟩ | ⟨between, rfl, hrest⟩
  · cases between with
    | nil =>
        cases hrest
        exact .inl ⟨rfl, by rw [List.append_nil]⟩
    | cons d between =>
        cases hrest
        rw [byteLength_append, byteLength_cons]
        exact .inr (by omega)
  · cases between with
    | nil =>
        cases hrest
        exact .inl ⟨rfl, by rw [List.append_nil]⟩
    | cons d between =>
        have hpos := d.utf8Size_pos
        rw [byteLength_append, byteLength_cons] at hle
        omega

theorem splits_nil (text : List Char) (stop : Nat) : Splits text stop stop [] where
  behind := List.forall_mem_nil _
  nonempty := List.forall_mem_nil _
  increasing := List.Pairwise.nil
  within := List.forall_mem_nil _
  longest := List.forall_mem_nil _
  blank _ _ _ _ hstart hstop := absurd hstop (Nat.not_lt.mpr hstart)

variable {front back : List Char} {stop : Nat} {tokens : List Token}

theorem Splits.space (hspace : isSpace c = true)
    (h : Splits (front ++ c :: back) (byteLength front + c.utf8Size) stop tokens) :
    Splits (front ++ c :: back) (byteLength front) stop tokens where
  toSpaced := h.toSpaced.mono (Nat.le_add_right _ _)
  within := h.within
  longest := h.longest
  blank front' c' back' hsplit hstart hstop houtside := by
    rcases eq_or_behind hsplit hstart with ⟨rfl, -⟩ | hbehind
    · exact hspace
    · exact h.blank front' c' back' hsplit hbehind hstop houtside

theorem Splits.token {text : List Char} {t : Token} (ht : t.start < t.stop)
    (hstop : t.stop ≤ stop) (hlongest : Munched text t) (h : Splits text t.stop stop tokens) :
    Splits text t.start stop (t :: tokens) where
  toSpaced := h.toSpaced.cons ht
  within := List.forall_mem_cons.mpr ⟨hstop, h.within⟩
  longest := List.forall_mem_cons.mpr ⟨hlongest, h.longest⟩
  blank front c back hsplit hstart hend houtside := by
    obtain ⟨hfirst, houtside⟩ := List.forall_mem_cons.mp houtside
    rcases hfirst with hbefore | hbehind
    · exact absurd hbefore (Nat.not_lt.mpr hstart)
    · exact h.blank front c back hsplit hbehind hend houtside

/-- From that byte on, where `cs` is left of the text, tokens and white space go on up to the end or
up to a place where nothing can be read. -/
def ReadsOn (text : List Char) (position : Nat) (cs : List Char) : Prop :=
  ∃ tokens stop, position ≤ stop ∧ Splits text position stop tokens ∧
    (tokensFrom position cs = .ok tokens ∧ stop = byteLength text ∨
      ∃ e, tokensFrom position cs = .error e ∧ StuckAt text stop e)

theorem ReadsOn.space (hspace : isSpace c = true)
    (h : ReadsOn (front ++ c :: cs) (byteLength front + c.utf8Size) cs) :
    ReadsOn (front ++ c :: cs) (byteLength front) (c :: cs) := by
  obtain ⟨tokens, stop, hle, hsplits, hend⟩ := h
  rw [ReadsOn, tokensFrom, if_pos hspace]
  exact ⟨tokens, stop, by omega, hsplits.space hspace, hend⟩

theorem ReadsOn.token (hspace : isSpace c = false) (hlongest : longest? (c :: cs) = some (kind, n))
    (h : ∀ front', byteLength front' = byteLength front + byteLength ((c :: cs).take n) →
      ReadsOn (front' ++ cs.drop (n - 1)) (byteLength front + byteLength ((c :: cs).take n))
        (cs.drop (n - 1))) :
    ReadsOn (front ++ c :: cs) (byteLength front) (c :: cs) := by
  have hpos : 0 < n := pos_of_longest? hlongest
  have hdrop : cs.drop (n - 1) = (c :: cs).drop n := by
    obtain ⟨m, rfl⟩ := Nat.exists_eq_add_one.mpr hpos
    rfl
  have hrest := h (front ++ (c :: cs).take n) (byteLength_append _ _)
  rw [hdrop, List.append_assoc, List.take_append_drop, ← hdrop] at hrest
  obtain ⟨tokens, stop, hle, hsplits, hend⟩ := hrest
  obtain ⟨hspelled, hmost⟩ := munched_of_longest? hlongest
  have hmunched : Munched (front ++ c :: cs)
      ⟨kind, byteLength front, byteLength front + byteLength ((c :: cs).take n)⟩ := by
    refine ⟨front, (c :: cs).take n, (c :: cs).drop n, ?_, rfl, byteLength_append _ _, hspelled,
      fun kind' longer hlonger hmatch => ?_⟩
    · rw [List.take_append_drop]
    · rw [List.take_append_drop] at hlonger
      rw [List.length_take_of_le (le_of_longest? hlongest)]
      exact hmost kind' longer hlonger hmatch
  have hnonempty : 0 < byteLength ((c :: cs).take n) := byteLength_take_pos hpos
  have hstep := tokensFrom.eq_def (byteLength front) (c :: cs)
  simp only [hspace, hlongest, Bool.false_eq_true, if_false] at hstep
  refine ⟨_ :: tokens, stop, by omega, hsplits.token (t := ⟨kind, byteLength front, _⟩)
    (Nat.lt_add_of_pos_right hnonempty) hle hmunched, ?_⟩
  rcases hend with ⟨htokens, hstop⟩ | ⟨e, herror, hstuck⟩
  · rw [hstep, htokens]
    exact .inl ⟨rfl, hstop⟩
  · rw [hstep, herror]
    exact .inr ⟨e, rfl, hstuck⟩

theorem readsOn (position : Nat) (cs : List Char) : ∀ front, byteLength front = position →
    ReadsOn (front ++ cs) position cs := by
  induction position, cs using tokensFrom.induct with
  | case1 position =>
      rintro front rfl
      rw [List.append_nil]
      exact ⟨[], _, Nat.le_refl _, splits_nil _ _, .inl ⟨by rw [tokensFrom], rfl⟩⟩
  | case2 position c cs hspace ih =>
      rintro front rfl
      have hrest := ih (front ++ [c]) (by rw [byteLength_append]; rfl)
      rw [List.append_assoc, List.singleton_append] at hrest
      exact hrest.space hspace
  | case3 position c cs hspace hnone =>
      rintro front rfl
      have hspace := Bool.eq_false_iff.mpr hspace
      exact ⟨[], _, Nat.le_refl _, splits_nil _ _, .inr ⟨_, tokensFrom_eq_error hspace hnone _,
        front, c, cs, rfl, rfl, rfl, hspace,
        fun kind word hw => not_matches_of_longest? hnone kind hw⟩⟩
  | case4 position c cs hspace kind n hlongest stop tail htail ih =>
      rintro front rfl
      exact .token (Bool.eq_false_iff.mpr hspace) hlongest ih
  | case5 position c cs hspace kind n hlongest stop e herror ih =>
      rintro front rfl
      exact .token (Bool.eq_false_iff.mpr hspace) hlongest ih

/-- Every text is split by maximal munch, and nothing of it gets lost. Where there are tokens, they
stand one behind the other, with white space between them, from the beginning up to the token that
stands for the end, which is empty and lies behind the last byte; each of them is spelled as its
pattern says, and no word that begins at the same place is longer and matches any pattern. Otherwise
the report names the first place, behind such tokens and white space, at which no pattern matches. -/
theorem tokenize_takes_longest (text : String) :
    (∀ tokens, tokenize text = .ok tokens →
        Splits text.toList 0 (Token.endOf text).start tokens ∧
          (Token.endOf text).start = byteLength text.toList ∧
          (Token.endOf text).stop = byteLength text.toList ∧
          ∀ t ∈ tokens, t.kind ≠ .endOfInput) ∧
      ∀ e, tokenize text = .error e →
        ∃ tokens position, Splits text.toList 0 position tokens ∧
          StuckAt text.toList position e := by
  have hend : byteLength text.toList = (Token.endOf text).start := byteLength_toList text
  obtain ⟨tokens, stop, -, hsplits, ⟨htokens, rfl⟩ | ⟨e, herror, hstuck⟩⟩ :=
    readsOn 0 text.toList [] rfl
  · refine ⟨fun tokens' h => ?_, fun e h => ?_⟩
    · obtain rfl := Except.ok.inj (htokens.symm.trans h)
      refine ⟨hend ▸ hsplits, hend.symm, hend.symm, fun t ht hkind => ?_⟩
      obtain ⟨_, word, _, -, -, -, ⟨hmatch, -⟩, -⟩ := hsplits.longest t ht
      rw [hkind] at hmatch
      exact hmatch
    · cases htokens.symm.trans h
  · refine ⟨fun tokens' h => ?_, fun e' h => ?_⟩
    · cases herror.symm.trans h
    · obtain rfl := Except.error.inj (herror.symm.trans h)
      exact ⟨tokens, stop, hsplits, hstuck⟩

/-- No digit follows the mark of the exponent in `1e+x`, and of two stars one would be a token. A
letter with an accent, which takes two bytes, is reported at the byte where it begins. -/
theorem tokenize_takes_longest_mixed :
    (∃ tokens, tokenize "1e+x**.5" = .ok tokens ∧
        tokens.map (fun t => (t.start, t.stop)) = [(0, 1), (1, 2), (2, 3), (3, 4), (4, 6), (6, 8)] ∧
        ∀ t ∈ tokens, Munched "1e+x**.5".toList t) ∧
      tokenize "x **\té" = .error (.invalidCharacter "é" 5) ∧
        ∃ tokens position, Splits "x **\té".toList 0 position tokens ∧
          StuckAt "x **\té".toList position (.invalidCharacter "é" 5) := by
  have hspans : (tokenize "1e+x**.5").toOption.map (List.map fun t => (t.start, t.stop)) =
      some [(0, 1), (1, 2), (2, 3), (3, 4), (4, 6), (6, 8)] := by
    decide +kernel
  have herror : tokenize "x **\té" = .error (.invalidCharacter "é" 5) := by
    cbv
  constructor
  · cases htokens : tokenize "1e+x**.5" with
    | error e =>
        rw [htokens] at hspans
        cases hspans
    | ok tokens =>
        rw [htokens] at hspans
        exact ⟨tokens, rfl, Option.some.inj hspans,
          ((tokenize_takes_longest _).1 tokens htokens).1.longest⟩
  · exact ⟨herror, (tokenize_takes_longest _).2 _ herror⟩

end Lexer

end SymbolicRegression
