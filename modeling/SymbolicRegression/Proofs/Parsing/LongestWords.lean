import SymbolicRegression.Proofs.Parsing.Patterns

/-!
# The longest word at the start of a text

A number is the pattern for which the longest word is not at hand. Each of its three parts is read as
far as it goes, and the length of the whole is the sum of the three; that no other way to match is
longer is `length_le_numberLength`. Whoever matches the pattern may end a part early, but then nothing
can stand behind it: what follows a part does not start with a character that the part would go on
with.

The first character of a word tells marks, names and numbers from one another, so the patterns need
not be compared with each other. A number that is matched always has a value, so no place at which a
pattern matches is left without a token.
-/

namespace SymbolicRegression

open RegularExpression

namespace Lexer

variable {p : RegularExpression Char} {c : Char} {cs w : List Char} {kind : TokenKind} {n : Nat}

/-! ## The parts of a number -/

/-- Of the words at the start that the pattern matches, the longest has that many characters. -/
structure Longest (p : RegularExpression Char) (cs : List Char) (n : Nat) : Prop where
  mem : cs.take n ∈ p.matches'
  le : ∀ w, w <+: cs → w ∈ p.matches' → w.length ≤ n

/-- Characters of a class are followed by something only where no further one stands. -/
theorem eq_takeWhile_or_nil {p : Char → Bool} {a b : List Char} (h : a ++ b <+: cs)
    (ha : ∀ c ∈ a, p c = true) (hb : ∀ c rest, b = c :: rest → p c = false) :
    (b = [] ∧ a.length ≤ (cs.takeWhile p).length) ∨
      a = cs.takeWhile p ∧ b <+: cs.drop (cs.takeWhile p).length := by
  obtain ⟨rest, rfl⟩ := h
  cases b with
  | nil =>
      rw [List.append_nil, List.takeWhile_append_of_pos ha, List.length_append]
      exact .inl ⟨rfl, Nat.le_add_right _ _⟩
  | cons d b =>
      have htake : (a ++ (d :: b ++ rest)).takeWhile p = a :=
        takeWhile_append_of_stops ha fun c cs heq => hb c b (by cases heq; rfl)
      rw [List.append_assoc, htake, List.drop_left]
      exact .inr ⟨rfl, List.prefix_append _ _⟩

theorem take_takeWhile (p : Char → Bool) (cs : List Char) :
    cs.take (cs.takeWhile p).length = cs.takeWhile p :=
  (List.prefix_iff_eq_take.mp (List.takeWhile_prefix p)).symm

theorem signLength_append {sign ds : List Char} (hsign : sign = [] ∨ sign = ['+'] ∨ sign = ['-'])
    (hne : ds ≠ []) (hds : ∀ d ∈ ds, d.isDigit = true) (rest : List Char) :
    signLength (sign ++ (ds ++ rest)) = sign.length := by
  rcases hsign with rfl | rfl | rfl
  · obtain ⟨d, ds, rfl⟩ := List.exists_cons_of_ne_nil hne
    have hd := hds d List.mem_cons_self
    refine signLength_cons ?_ ?_ _
    all_goals rintro rfl
    all_goals exact absurd hd (by decide)
  · rfl
  · rfl

theorem take_signLength (cs : List Char) : cs.take (signLength cs) = [] ∨
    cs.take (signLength cs) = ['+'] ∨ cs.take (signLength cs) = ['-'] := by
  rw [signLength.eq_def]
  split
  · exact .inr (.inl rfl)
  · exact .inr (.inr rfl)
  · exact .inl rfl

theorem longest_exponent (cs : List Char) :
    Longest (Pattern.optional Pattern.exponent) cs (exponentLength cs) := by
  constructor
  · cases cs with
    | nil => exact .inl rfl
    | cons c cs =>
        by_cases hmark : (c == 'e' || c == 'E') = true
        · rw [exponentLength_cons hmark]
          split
          · exact .inl rfl
          · next hempty =>
              rw [List.take_succ_cons, List.take_add, take_takeWhile]
              refine .inr (Pattern.mem_exponent.mpr ⟨c, _, _, rfl, hmark, take_signLength cs, ?_, ?_⟩)
              · exact fun hnil => hempty (List.isEmpty_iff.mpr hnil)
              · exact fun d hd => List.mem_takeWhile_imp hd
        · rw [exponentLength, if_neg hmark]
          exact .inl rfl
  · intro w hw hmem
    rcases Pattern.mem_optional.mp hmem with rfl | hmem
    · exact Nat.zero_le _
    obtain ⟨e, sign, ds, rfl, hmark, hsign, hne, hds⟩ := Pattern.mem_exponent.mp hmem
    obtain ⟨rest, rfl⟩ := hw
    rw [List.cons_append, List.append_assoc, exponentLength_cons hmark,
      signLength_append hsign hne hds, List.drop_left, List.takeWhile_append_of_pos hds]
    have hpos := List.length_pos_of_ne_nil hne
    rw [if_neg (by simp [hne]), List.length_cons, List.length_append, List.length_append]
    omega

theorem longest_fraction (cs : List Char) :
    Longest (Pattern.optional Pattern.fraction) cs (fractionLength cs) := by
  constructor
  · rw [fractionLength.eq_def]
    split
    · next rest =>
        rw [Nat.add_comm, List.take_succ_cons, take_takeWhile]
        exact .inr (Pattern.mem_fraction.mpr ⟨_, rfl, fun d hd => List.mem_takeWhile_imp hd⟩)
    · exact .inl rfl
  · intro w hw hmem
    rcases Pattern.mem_optional.mp hmem with rfl | hmem
    · exact Nat.zero_le _
    obtain ⟨ds, rfl, hds⟩ := Pattern.mem_fraction.mp hmem
    obtain ⟨rest, rfl⟩ := hw
    rw [List.cons_append, fractionLength, List.takeWhile_append_of_pos hds, List.length_append,
      List.length_cons]
    omega

theorem isMark_of_mem_exponent (h : c :: w ∈ (Pattern.optional Pattern.exponent).matches') :
    c = 'e' ∨ c = 'E' := by
  rcases Pattern.mem_optional.mp h with h | h
  · cases h
  obtain ⟨e, sign, ds, heq, hmark, -⟩ := Pattern.mem_exponent.mp h
  obtain ⟨rfl, -⟩ := List.cons.inj heq
  rwa [Bool.or_eq_true, beq_iff_eq, beq_iff_eq] at hmark

theorem not_isDigit_of_mem_exponent (h : w ∈ (Pattern.optional Pattern.exponent).matches') :
    ∀ c rest, w = c :: rest → c.isDigit = false := by
  rintro c rest rfl
  rcases isMark_of_mem_exponent h with rfl | rfl
  all_goals decide

/-- A fraction with an exponent is no longer than both can be one after the other. -/
theorem length_point_power_le {point power : List Char} (hw : point ++ power <+: cs)
    (hpoint : point ∈ (Pattern.optional Pattern.fraction).matches')
    (hpower : power ∈ (Pattern.optional Pattern.exponent).matches') :
    point.length ≤ fractionLength cs ∧ point.length + power.length ≤
      fractionLength cs + exponentLength (cs.drop (fractionLength cs)) := by
  have hfit : point.length ≤ fractionLength cs :=
    (longest_fraction cs).le point ((List.prefix_append _ _).trans hw) hpoint
  refine ⟨hfit, ?_⟩
  by_cases hpower_nil : power = []
  · rw [hpower_nil, List.length_nil]
    omega
  have hexact : point.length = fractionLength cs := by
    rcases Pattern.mem_optional.mp hpoint with rfl | hpoint
    · obtain ⟨e, rest, rfl⟩ := List.exists_cons_of_ne_nil hpower_nil
      obtain ⟨behind, rfl⟩ := hw
      refine (fractionLength_cons ?_ _).symm
      rintro rfl
      rcases isMark_of_mem_exponent hpower with h | h
      all_goals exact absurd h (by decide)
    · obtain ⟨ds, rfl, hds⟩ := Pattern.mem_fraction.mp hpoint
      obtain ⟨behind, rfl⟩ := hw
      have hprefix : ds ++ power <+: ds ++ (power ++ behind) := by
        rw [← List.append_assoc]
        exact List.prefix_append _ _
      rcases eq_takeWhile_or_nil hprefix hds (not_isDigit_of_mem_exponent hpower) with h | h
      · exact absurd h.1 hpower_nil
      · rw [List.cons_append, List.cons_append, List.append_assoc, fractionLength, ← h.1,
          List.length_cons, Nat.add_comm]
  have hprefix : power <+: cs.drop (fractionLength cs) := by
    obtain ⟨behind, rfl⟩ := hw
    rw [← hexact, List.append_assoc, List.drop_left]
    exact List.prefix_append _ _
  have hle := (longest_exponent _).le power hprefix hpower
  omega

theorem numberLength_of_digit
    (h : cs.takeWhile Char.isDigit = [] →
      2 ≤ fractionLength (cs.drop (cs.takeWhile Char.isDigit).length)) :
    numberLength cs = mantissaLength cs + exponentLength (cs.drop (mantissaLength cs)) := by
  rw [numberLength_eq, if_neg]
  rw [Bool.and_eq_true, decide_eq_true_iff, decide_eq_true_iff, List.length_eq_zero_iff]
  rintro ⟨hnil, hle⟩
  have hlong := h hnil
  omega

theorem length_le_numberLength (hw : w <+: cs) (hmem : w ∈ Pattern.number.matches') :
    w.length ≤ numberLength cs := by
  obtain ⟨whole, point, power, rfl, hwhole, hpoint, hpower, hlong⟩ := Pattern.mem_number.mp hmem
  have hstop : ∀ d rest, point ++ power = d :: rest → d.isDigit = false := by
    rcases Pattern.mem_optional.mp hpoint with rfl | hpoint
    · exact not_isDigit_of_mem_exponent hpower
    · obtain ⟨ds, rfl, -⟩ := Pattern.mem_fraction.mp hpoint
      rintro d rest heq
      cases heq
      decide
  rw [List.length_append, List.length_append]
  rcases eq_takeWhile_or_nil hw hwhole hstop with ⟨hnil, hle⟩ | ⟨hexact, hw⟩
  · obtain ⟨rfl, rfl⟩ := List.append_eq_nil_iff.mp hnil
    have hpos : 0 < whole.length :=
      List.length_pos_of_ne_nil fun hempty => absurd (hlong hempty) (by decide)
    rw [numberLength_of_digit fun hempty => by rw [hempty, List.length_nil] at hle; omega,
      mantissaLength, List.length_nil]
    omega
  · obtain ⟨hfit, hle⟩ := length_point_power_le hw hpoint hpower
    have hnumber : numberLength cs = mantissaLength cs + _ :=
      numberLength_of_digit fun hempty => Nat.le_trans (hlong (hexact.trans hempty)) hfit
    rw [mantissaLength, ← hexact, ← List.drop_drop] at hnumber
    rw [← hexact] at hle
    omega

theorem take_numberLength (h : numberLength cs ≠ 0) :
    cs.take (numberLength cs) ∈ Pattern.number.matches' := by
  have hdigit : cs.takeWhile Char.isDigit = [] →
      2 ≤ fractionLength (cs.drop (cs.takeWhile Char.isDigit).length) := by
    intro hnil
    by_contra hshort
    refine h ?_
    rw [numberLength_eq, if_pos]
    rw [Bool.and_eq_true, decide_eq_true_iff, decide_eq_true_iff, List.length_eq_zero_iff]
    exact ⟨hnil, by omega⟩
  have hfraction := (longest_fraction (cs.drop (cs.takeWhile Char.isDigit).length)).mem
  have hexponent := (longest_exponent (cs.drop (mantissaLength cs))).mem
  rw [numberLength_of_digit hdigit, List.take_add, mantissaLength, List.take_add, take_takeWhile,
    List.append_assoc]
  refine Pattern.mem_number.mpr ⟨_, _, _, rfl, fun d hd => List.mem_takeWhile_imp hd, hfraction,
    hexponent, fun hnil => ?_⟩
  rw [List.length_take_of_le (fractionLength_le _)]
  exact hdigit hnil

/-! ## The value of a number -/

theorem exists_exponentOf? {power : List Char}
    (h : power ∈ (Pattern.optional Pattern.exponent).matches') :
    ∃ k, Numeral.exponentOf? power = some k := by
  rcases Pattern.mem_optional.mp h with rfl | h
  · exact ⟨0, rfl⟩
  obtain ⟨e, sign, ds, rfl, hmark, hsign, hne, hds⟩ := Pattern.mem_exponent.mp h
  have hmark : e = 'e' ∨ e = 'E' := by
    rwa [Bool.or_eq_true, beq_iff_eq, beq_iff_eq] at hmark
  have hsplit : (Numeral.splitSign (sign ++ ds)).2 = ds := by
    rcases hsign with rfl | rfl | rfl
    · obtain ⟨d, ds, rfl⟩ := List.exists_cons_of_ne_nil hne
      have hd := hds d List.mem_cons_self
      rw [List.nil_append, Numeral.splitSign.eq_def]
      split
      · next heq => cases heq; exact absurd hd (by decide)
      · next heq => cases heq; exact absurd hd (by decide)
      · rfl
    · rfl
    · rfl
  rw [Numeral.exponentOf?, if_pos hmark]
  dsimp only
  rw [hsplit, if_neg (by simp [hne, List.all_eq_true.mpr hds])]
  exact ⟨_, rfl⟩

theorem dropWhile_append_of_stops {p : Char → Bool} {front back : List Char}
    (hfront : ∀ c ∈ front, p c = true) (hback : ∀ c cs, back = c :: cs → p c = false) :
    (front ++ back).dropWhile p = back := by
  rw [List.dropWhile_append_of_pos hfront]
  cases back with
  | nil => rfl
  | cons c cs => exact List.dropWhile_cons_of_neg (by simp [hback c cs rfl])

/-- Whatever the pattern of numbers matches has a value. -/
theorem exists_unsigned? (h : w ∈ Pattern.number.matches') :
    ∃ value, Numeral.unsigned? w = some value := by
  obtain ⟨whole, point, power, rfl, hwhole, hpoint, hpower, hlong⟩ := Pattern.mem_number.mp h
  obtain ⟨k, hk⟩ := exists_exponentOf? hpower
  have hstop := not_isDigit_of_mem_exponent hpower
  rcases Pattern.mem_optional.mp hpoint with rfl | hpoint
  · have hne : whole ≠ [] := fun hempty => absurd (hlong hempty) (by decide)
    rw [List.nil_append, Numeral.unsigned?, takeWhile_append_of_stops hwhole hstop,
      dropWhile_append_of_stops hwhole hstop]
    have hempty : whole.isEmpty = false := List.isEmpty_eq_false_iff.mpr hne
    split
    next fraction rest heq =>
      split at heq
      · rcases isMark_of_mem_exponent hpower with h | h
        all_goals exact absurd h (by decide)
      · cases heq
        rw [hempty, hk]
        exact ⟨_, rfl⟩
  · obtain ⟨ds, rfl, hds⟩ := Pattern.mem_fraction.mp hpoint
    have hstop' : ∀ c cs, '.' :: ds ++ power = c :: cs → c.isDigit = false := by
      intro c cs heq
      cases heq
      decide
    have hdigits : (whole.isEmpty && ds.isEmpty) = false := by
      rw [Bool.and_eq_false_imp, List.isEmpty_iff, List.isEmpty_eq_false_iff]
      intro hempty hnil
      have hlong := hlong hempty
      rw [hnil] at hlong
      exact absurd hlong (by decide)
    rw [Numeral.unsigned?, takeWhile_append_of_stops hwhole hstop',
      dropWhile_append_of_stops hwhole hstop', List.cons_append]
    simp only [takeWhile_append_of_stops hds hstop, dropWhile_append_of_stops hds hstop, hk,
      hdigits, Bool.false_eq_true, if_false, Option.map_some, Option.some.injEq, exists_eq']

end Lexer

/-! ## The longest token -/

/-- The word matches the pattern of the kind, and the token has taken from it the number or the name
that it stands for. -/
def TokenKind.Spelled (kind : TokenKind) (word : List Char) : Prop :=
  kind.Matches word ∧
    match kind with
    | number value => Numeral.unsigned? word = some value
    | name text => text = String.ofList word
    | _ => True

namespace Lexer

variable {c : Char} {cs w : List Char} {kind : TokenKind} {n : Nat}

theorem head_of_mem_number (h : w ∈ Pattern.number.matches') :
    ∃ c cs, w = c :: cs ∧ (c.isDigit = true ∨ c = '.') := by
  obtain ⟨whole, point, power, rfl, hwhole, hpoint, -, hlong⟩ := Pattern.mem_number.mp h
  cases whole with
  | nil =>
      rcases Pattern.mem_optional.mp hpoint with rfl | hpoint
      · exact absurd (hlong rfl) (by decide)
      obtain ⟨ds, rfl, -⟩ := Pattern.mem_fraction.mp hpoint
      exact ⟨'.', _, rfl, .inr rfl⟩
  | cons d whole => exact ⟨d, _, rfl, .inl (hwhole d List.mem_cons_self)⟩

/-- A word is a mark, two stars, a name or a number, and the first character says which. -/
theorem cases_of_matches (h : kind.Matches w) : ∃ c cs, w = c :: cs ∧
    (isMark c = true ∧ (cs = [] ∨ c = '*' ∧ cs = ['*']) ∨
      isMark c = false ∧ startsName c = true ∧ (∀ d ∈ cs, continuesName d = true) ∨
      isMark c = false ∧ startsName c = false ∧ w ∈ Pattern.number.matches') := by
  cases kind with
  | number value =>
      obtain ⟨c, cs, rfl, hc⟩ := head_of_mem_number h
      refine ⟨c, cs, rfl, .inr (.inr ?_)⟩
      rcases hc with hc | rfl
      · exact ⟨isMark_of_isDigit hc, startsName_of_isDigit hc, h⟩
      · exact ⟨rfl, rfl, h⟩
  | name text =>
      obtain ⟨c, cs, rfl, hc, hcs⟩ := Pattern.mem_name.mp h
      exact ⟨c, cs, rfl, .inr (.inl ⟨isMark_of_startsName hc, hc, hcs⟩)⟩
  | endOfInput => exact absurd h id
  | doubleStar => exact ⟨_, _, Pattern.mem_literal.mp h, .inl ⟨rfl, .inr ⟨rfl, rfl⟩⟩⟩
  | leftParen | rightParen | comma | plus | minus | star | slash | caret =>
      exact ⟨_, _, Pattern.mem_literal.mp h, .inl ⟨rfl, .inl rfl⟩⟩

/-- A mark that is no star stands alone. -/
theorem length_le_one_of_mark (hmark : isMark c = true) (hstar : c ≠ '*') (hw : w <+: c :: cs)
    (h : kind.Matches w) : w.length ≤ 1 := by
  obtain ⟨d, rest, rfl, hcases⟩ := cases_of_matches h
  obtain ⟨rfl, -⟩ := List.cons_prefix_cons.mp hw
  rcases hcases with ⟨-, rfl | ⟨rfl, -⟩⟩ | ⟨hno, -⟩ | ⟨hno, -⟩
  · exact Nat.le_refl 1
  · exact absurd rfl hstar
  · exact absurd (hmark.symm.trans hno) (by decide)
  · exact absurd (hmark.symm.trans hno) (by decide)

theorem length_le_of_star (hw : w <+: '*' :: cs) (h : kind.Matches w) :
    w.length ≤ 1 ∨ w = ['*', '*'] := by
  obtain ⟨d, rest, rfl, hcases⟩ := cases_of_matches h
  obtain ⟨rfl, -⟩ := List.cons_prefix_cons.mp hw
  rcases hcases with ⟨-, rfl | ⟨-, rfl⟩⟩ | ⟨hno, -⟩ | ⟨hno, -⟩
  · exact .inl (Nat.le_refl 1)
  · exact .inr rfl
  · cases hno
  · cases hno

theorem length_le_of_name (hstart : startsName c = true) (hw : w <+: c :: cs)
    (h : kind.Matches w) : w.length ≤ (cs.takeWhile continuesName).length + 1 := by
  obtain ⟨d, rest, rfl, hcases⟩ := cases_of_matches h
  obtain ⟨rfl, behind, rfl⟩ := List.cons_prefix_cons.mp hw
  rcases hcases with ⟨hno, -⟩ | ⟨-, -, hrest⟩ | ⟨-, hno, -⟩
  · exact absurd (hno.symm.trans (isMark_of_startsName hstart)) (by decide)
  · rw [List.takeWhile_append_of_pos hrest, List.length_append, List.length_cons]
    omega
  · exact absurd (hno.symm.trans hstart) (by decide)

/-- What starts neither as a mark nor as a name can only be a number. -/
theorem mem_number_of_matches (hmark : isMark c = false) (hstart : startsName c = false)
    (hw : w <+: c :: cs) (h : kind.Matches w) : w ∈ Pattern.number.matches' := by
  obtain ⟨d, rest, rfl, hcases⟩ := cases_of_matches h
  obtain ⟨rfl, -⟩ := List.cons_prefix_cons.mp hw
  rcases hcases with ⟨hno, -⟩ | ⟨-, hno, -⟩ | ⟨-, -, hmem⟩
  · exact absurd (hno.symm.trans hmark) (by decide)
  · exact absurd (hno.symm.trans hstart) (by decide)
  · exact hmem

/-- What is taken as a token is spelled as one, and no longer word at the start is. -/
theorem munched_of_longest? (h : longest? cs = some (kind, n)) :
    kind.Spelled (cs.take n) ∧ ∀ kind' w, w <+: cs → TokenKind.Matches kind' w → w.length ≤ n := by
  unfold longest? at h
  split at h
  case h_7 => -- two stars
    cases h
    refine ⟨⟨Pattern.mem_literal.mpr rfl, trivial⟩, fun kind' w hw hmatch => ?_⟩
    rcases length_le_of_star hw hmatch with hle | rfl
    · omega
    · exact Nat.le_refl 2
  case h_8 hstar =>
    cases h
    refine ⟨⟨Pattern.mem_literal.mpr rfl, trivial⟩, fun kind' w hw hmatch => ?_⟩
    rcases length_le_of_star hw hmatch with hle | rfl
    · exact hle
    · obtain ⟨rest, heq⟩ := hw
      cases heq
      exact absurd rfl (hstar rest)
  case h_11 c cs _ _ _ _ _ _ _ _ _ =>
    have hmark : isMark c = false := by
      refine isMark_eq_false ?_
      rintro (rfl | rfl | rfl | rfl | rfl | rfl | rfl | rfl)
      all_goals contradiction
    dsimp only at h
    split at h
    · next hstart =>
        cases h
        rw [List.length_cons, List.take_succ_cons, take_takeWhile]
        exact ⟨⟨Pattern.mem_name.mpr ⟨c, _, rfl, hstart, fun d hd => List.mem_takeWhile_imp hd⟩, rfl⟩,
          fun kind' w hw hmatch => length_le_of_name hstart hw hmatch⟩
    · next hstart =>
        split at h
        · cases h
        · next hpos =>
            obtain ⟨value, hvalue, heq⟩ := Option.map_eq_some_iff.mp h
            cases heq
            exact ⟨⟨take_numberLength hpos, hvalue⟩, fun kind' w hw hmatch =>
              length_le_numberLength hw
                (mem_number_of_matches hmark (Bool.eq_false_iff.mpr hstart) hw hmatch)⟩
  case h_1 => cases h
  all_goals
    cases h
    exact ⟨⟨Pattern.mem_literal.mpr rfl, trivial⟩, fun kind' w hw hmatch =>
      length_le_one_of_mark rfl (by decide) hw hmatch⟩

theorem isSome_longest?_of_mark (h : isMark c = true) (cs : List Char) :
    (longest? (c :: cs)).isSome = true := by
  by_cases hstar : c = '*'
  · subst hstar
    unfold longest?
    split
    case h_1 heq => cases heq
    case h_11 hstar _ _ heq =>
      cases heq
      exact absurd rfl hstar
    all_goals rfl
  · rw [longest?_of_mark h hstar cs []]
    have hmem : c ∈ ['(', ')', ',', '+', '-', '*', '/', '^'] := List.contains_iff_mem.mp h
    simp only [List.mem_cons, List.not_mem_nil, or_false] at hmem
    rcases hmem with rfl | rfl | rfl | rfl | rfl | rfl | rfl | rfl
    all_goals rfl

/-- Where no token is taken, no word at the start is one. -/
theorem not_matches_of_longest? (h : longest? (c :: cs) = none) (kind : TokenKind)
    (hw : w <+: c :: cs) : ¬kind.Matches w := by
  intro hmatch
  have hmark : isMark c = false := by
    rw [Bool.eq_false_iff]
    intro hmark
    have hsome := isSome_longest?_of_mark hmark cs
    rw [h] at hsome
    cases hsome
  rw [longest?_of_not_mark hmark] at h
  split at h
  · cases h
  · next hstart =>
      have hmem := mem_number_of_matches hmark (Bool.eq_false_iff.mpr hstart) hw hmatch
      have hle := length_le_numberLength hw hmem
      split at h
      · next hzero =>
          obtain ⟨d, rest, rfl, -⟩ := head_of_mem_number hmem
          rw [hzero] at hle
          exact absurd hle (Nat.not_succ_le_zero _)
      · next hpos =>
          obtain ⟨value, hvalue⟩ := exists_unsigned? (take_numberLength hpos)
          rw [hvalue] at h
          cases h

end Lexer

end SymbolicRegression
