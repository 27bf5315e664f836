import SymbolicRegression.Proofs.Doubles.Decimals
import SymbolicRegression.Proofs.Parsing.Embedding
import SymbolicRegression.Proofs.Printing.Labels

/-!
# Printed numbers read back

A label is a number without an exponent: digits, and perhaps a point and more digits. In a text it is
taken for one token as long as no letter, digit or point follows, and the token has the value of the
coefficient's magnitude, rounded. The exponents of powers are whole numbers and have the value that
they are.
-/

namespace SymbolicRegression

open Float.Model (UnpackedFloat)

/-! ## Numbers as tokens -/

namespace Lexer

/-- No word that ends in front of the text goes on in it. -/
def Ends (cs : List Char) : Prop :=
  ∀ c rest, cs = c :: rest → isWordChar c = false

variable {cs ws fs rest : List Char}

theorem ends_nil : Ends [] := by
  intro c rest h
  cases h

theorem ends_cons {c : Char} (h : isWordChar c = false) : Ends (c :: rest) := by
  intro c' rest' heq
  cases heq
  exact h

theorem Ends.append (hcs : Ends cs) (hrest : Ends rest) : Ends (cs ++ rest) := by
  cases cs with
  | nil => exact hrest
  | cons c cs => exact ends_cons (hcs c cs rfl)

theorem Ends.separated (h : Ends rest) : Separated rest := by
  intro c cs heq
  have hword := h c cs heq
  rw [isWordChar, Bool.or_eq_false_iff] at hword
  exact hword.1

theorem Ends.not_isDigit (h : Ends rest) : ∀ c cs, rest = c :: cs → c.isDigit = false := by
  intro c cs heq
  have hname := h.separated c cs heq
  rw [continuesName, Bool.or_eq_false_iff] at hname
  exact hname.2

theorem Ends.exponentLength (h : Ends rest) : exponentLength rest = 0 := by
  cases rest with
  | nil => rfl
  | cons c cs =>
      have hword := h c cs rfl
      rw [Lexer.exponentLength, if_neg]
      intro he
      simp only [Bool.or_eq_true, beq_iff_eq] at he
      rcases he with rfl | rfl
      all_goals exact absurd hword (by decide)

theorem Ends.fractionLength (h : Ends rest) : fractionLength rest = 0 := by
  rw [Lexer.fractionLength.eq_def]
  split
  · exact absurd (h '.' _ rfl) (by decide)
  · rfl

theorem mantissaLength_numeral (hcs : IsNumeral cs) (hrest : Ends rest) :
    0 < ((cs ++ rest).takeWhile Char.isDigit).length ∧ mantissaLength (cs ++ rest) = cs.length := by
  rw [mantissaLength]
  cases hcs with
  | whole hne hws =>
      rw [takeWhile_append_of_stops hws hrest.not_isDigit, List.drop_left, hrest.fractionLength]
      exact ⟨List.length_pos_iff.mpr hne, rfl⟩
  | @point ws fs hne hws hfs =>
      have hfraction : fractionLength ('.' :: (fs ++ rest)) = 1 + fs.length := by
        rw [Lexer.fractionLength, takeWhile_append_of_stops hfs hrest.not_isDigit]
      rw [List.append_assoc, List.cons_append, takeWhile_append_of_stops hws ?_, List.drop_left,
        hfraction, List.length_append, List.length_cons, Nat.add_comm 1]
      · exact ⟨List.length_pos_iff.mpr hne, rfl⟩
      · intro c cs heq
        cases heq
        decide

/-- A number ends where a word would. -/
theorem numberLength_numeral (hcs : IsNumeral cs) (hrest : Ends rest) :
    numberLength (cs ++ rest) = cs.length := by
  obtain ⟨hwhole, hmantissa⟩ := mantissaLength_numeral hcs hrest
  rw [numberLength_eq, hmantissa, List.drop_left, hrest.exponentLength, Nat.add_zero,
    decide_eq_false (by omega), Bool.false_and, if_neg Bool.false_ne_true]

theorem Lexes.numeral {x : Float} {kinds : List TokenKind} (hcs : IsNumeral cs)
    (hx : Numeral.unsigned? cs = some x) (hrest : Ends rest) (h : Lexes rest kinds) :
    Lexes (cs ++ rest) (.number x :: kinds) := by
  have hlength := numberLength_numeral hcs hrest
  obtain ⟨c, cs', rfl, hc⟩ := hcs.exists_cons
  rw [List.cons_append] at hlength ⊢
  refine .token (n := cs'.length + 1) (isSpace_of_isDigit hc) ?_ ?_
  · rw [List.length_cons] at hlength
    have htake : (c :: (cs' ++ rest)).take (cs'.length + 1) = c :: cs' := by
      rw [List.take_succ_cons, List.take_left]
    rw [longest?_of_not_mark (isMark_of_isDigit hc), startsName_of_isDigit hc, hlength,
      if_neg Bool.false_ne_true, if_neg (Nat.succ_ne_zero _), htake, hx]
    rfl
  · rw [Nat.add_sub_cancel, List.drop_left]
    exact h

end Lexer

/-! ## The values of printed numbers -/

namespace Number

open Binary (ofFloat? ofFloat?_eq_some)

variable {c : Float} {n : ℕ}

/-- A whole number of at most 53 bits is read as itself. -/
theorem exists_toDigits (hlt : n < 2 ^ 53) :
    ∃ x, Numeral.unsigned? (Nat.toDigits 10 n) = some x ∧ Rational.ofDouble x = n := by
  refine ⟨Numeral.nearest n 0, ?_, ?_⟩
  · have hdigits : ∀ c ∈ Nat.toDigits 10 n, c.isDigit = true := fun _ hc =>
      Nat.isDigit_of_mem_toDigits (by decide) (by decide) hc
    have hread := Numeral.unsigned?_whole Nat.toDigits_ne_nil hdigits
    rwa [Numeral.ofDigits_eq, Nat.ofDigitChars_ten_toDigits] at hread
  · rcases Nat.eq_zero_or_pos n with rfl | hpos
    · decide +kernel
    · have hfloat := Binary.ofFloat?_toFloat (Binary.canonical_ofWhole hpos hlt)
      have hvalue := Binary.magnitude_ofWhole n
      rw [Binary.nearest_ofWhole hpos hlt, ofDouble_eq hfloat]
      rw [Binary.magnitude] at hvalue
      rw [show (Binary.ofWhole n).negative = false from rfl, if_neg Bool.false_ne_true, one_mul,
        hvalue]

theorem plain_eq {x : Float} {b : Binary} (hx : ofFloat? x = some b) (hs : b.negative = false) :
    plain x = (Decimal.shortest .up b).plain := by
  rw [plain, written, hx]
  dsimp only
  rw [hs, if_neg Bool.false_ne_true, String.empty_append]

theorem unsigned?_plain_of_unsigned {x : Float} {b : Binary} (hx : ofFloat? x = some b)
    (hs : b.negative = false) : Numeral.unsigned? (plain x).toList = some x := by
  rw [plain_eq hx hs, Decimal.unsigned?_plain_shortest .up (ofFloat?_eq_some hx).1 hs,
    Binary.toFloat_of_ofFloat? hx]

/-- A number is less than zero if its sign is negative and it is no zero. -/
theorem lt_zero_eq {x : Float} {b : Binary} (hx : ofFloat? x = some b) :
    Scalar.lt x (Scalar.zero : Float) = (b.negative && decide (b.mantissa ≠ 0)) := by
  have hlt : Scalar.lt x (Scalar.zero : Float) = UnpackedFloat.lt b.unpacked (.zero .positive) := by
    rw [← (ofFloat?_eq_some hx).2.1, Bool.eq_iff_iff]
    exact ⟨fun h => of_decide_eq_true (of_decide_eq_true h),
      fun h => decide_eq_true (decide_eq_true h)⟩
  rw [hlt]
  rcases Nat.eq_zero_or_pos b.mantissa with hzero | hpos
  · rw [Binary.unpacked, dif_pos hzero, decide_eq_false (not_not.mpr hzero), Bool.and_false]
    cases b.negative <;> rfl
  · rw [Binary.unpacked_of_pos hpos, decide_eq_true hpos.ne', Bool.and_true]
    cases b.negative <;> rfl

/-- The sign that is printed and the rounded magnitude make up the rounded number. -/
theorem ofDouble_roundTo_abs (hc : c.isFinite = true) :
    Rational.ofDouble (roundTo c printedDecimals) =
      (if Scalar.lt c Scalar.zero then -1 else 1) *
        Rational.ofDouble (roundTo (Scalar.abs c) printedDecimals) := by
  obtain ⟨b, hb⟩ := Binary.exists_of_isFinite hc
  have habs := Binary.ofFloat?_abs hb
  change ofFloat? (Scalar.abs c) = _ at habs
  rw [lt_zero_eq hb]
  obtain ⟨negative, m, e⟩ := b
  cases negative with
  | false =>
      have hsame : Scalar.abs c = c := by
        rw [← Binary.toFloat_of_ofFloat? habs, ← Binary.toFloat_of_ofFloat? hb]
      rw [hsame, Bool.false_and, if_neg Bool.false_ne_true, one_mul]
  | true =>
      have hopposite : Binary.Opposite c (Scalar.abs c) := by
        rw [Binary.Opposite, habs, hb]
        rfl
      have hvalue := ofDouble_roundTo_opposite hopposite hb
      by_cases hzero : m = 0
      · -- negative zero is printed without its sign
        have hexponent : e = -1074 := by
          rcases (ofFloat?_eq_some hb).1 with ⟨-, h⟩ | ⟨h, -⟩
          · exact h
          · exact absurd (hzero ▸ h : 2 ^ 52 ≤ 0) (by decide)
        have hround : Rational.ofDouble (roundTo c printedDecimals) = 0 := by
          rw [← Binary.toFloat_of_ofFloat? hb, hzero, hexponent]
          decide +kernel
        rw [hvalue, hround, neg_zero, mul_zero]
      · rw [Bool.true_and, if_pos (decide_eq_true hzero), hvalue, neg_mul_neg, one_mul]

/-- The label of a finite coefficient is read as its magnitude, rounded. -/
theorem exists_label (hc : c.isFinite = true) :
    IsNumeral (Coefficient.label (Scalar.abs c)).toList ∧
    ∃ x, Numeral.unsigned? (Coefficient.label (Scalar.abs c)).toList = some x ∧
      Rational.ofDouble (roundTo c printedDecimals) =
        (if Scalar.lt c Scalar.zero then -1 else 1) * Rational.ofDouble x := by
  obtain ⟨b, hb⟩ := Binary.exists_of_isFinite hc
  obtain ⟨b', hb'⟩ := exists_roundTo (Binary.ofFloat?_abs hb)
  have hs := negative_eq_false (unsigned_roundTo (unsigned_abs c)) hb'
  refine ⟨?_, _, unsigned?_plain_of_unsigned hb' hs, ofDouble_roundTo_abs hc⟩
  show IsNumeral (plain (roundTo c.abs printedDecimals)).toList
  rw [plain_eq hb' hs]
  exact Decimal.isNumeral_plain _

end Number

end SymbolicRegression
