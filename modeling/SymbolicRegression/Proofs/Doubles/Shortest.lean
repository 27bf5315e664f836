import SymbolicRegression.Number.Text
import SymbolicRegression.Proofs.Doubles.Nearest

/-!
# Shortest digits read back

A double is written with the fewest decimal digits that read back to it. Every candidate that the
search takes has been tested to lie among the numbers that are rounded to the double. That the search
finds one needs an argument: with seventeen digits the grid is finer than the range of these numbers
is wide, so of the two neighbours of the double on the grid one lies in the range. Moving zeros into
the exponent and writing the digits out keep the number, and so the written form of a double is read
as that double.
-/

namespace SymbolicRegression

namespace Decimal

open Binary (ReadsBack)

/-! ## Places on a decimal grid -/

variable {m c : ℕ} {q k : ℤ}

theorem onGrid_snd_pos (m : ℕ) (q k : ℤ) : 0 < (onGrid m q k).2 := by
  show 0 < 2 ^ (-q).toNat * 10 ^ k.toNat
  positivity

theorem two_pow_toNat (q : ℤ) : (2 : ℚ) ^ q * 2 ^ (-q).toNat = 2 ^ q.toNat := by
  rw [← zpow_natCast, ← zpow_natCast, ← zpow_add₀ (by norm_num)]
  congr 1
  omega

theorem ten_pow_toNat (k : ℤ) : (10 : ℚ) ^ k * 10 ^ (-k).toNat = 10 ^ k.toNat := by
  rw [← zpow_natCast, ← zpow_natCast, ← zpow_add₀ (by norm_num)]
  congr 1
  omega

/-- The quotient counts the steps of the grid. -/
theorem onGrid_eq (m : ℕ) (q k : ℤ) :
    ((onGrid m q k).1 : ℚ) * 10 ^ k = m * 2 ^ q * (onGrid m q k).2 := by
  show ((m * 2 ^ q.toNat * 10 ^ (-k).toNat : ℕ) : ℚ) * 10 ^ k =
    m * 2 ^ q * (2 ^ (-q).toNat * 10 ^ k.toNat : ℕ)
  push_cast
  rw [← two_pow_toNat q, ← ten_pow_toNat k]
  ring

theorem onGrid_le_iff {m' : ℕ} :
    (onGrid m q k).1 ≤ c * (onGrid m' q k).2 ↔ (m : ℚ) * 2 ^ q ≤ c * 10 ^ k := by
  have hunit : (0 : ℚ) < (onGrid m q k).2 := by exact_mod_cast onGrid_snd_pos m q k
  have hten : (0 : ℚ) < 10 ^ k := by positivity
  show (onGrid m q k).1 ≤ c * (onGrid m q k).2 ↔ _
  rw [← Nat.cast_le (α := ℚ), ← mul_le_mul_iff_left₀ hten, onGrid_eq, Nat.cast_mul,
    mul_right_comm (c : ℚ), mul_le_mul_iff_left₀ hunit]

theorem le_onGrid_iff {m' : ℕ} :
    c * (onGrid m' q k).2 ≤ (onGrid m q k).1 ↔ (c : ℚ) * 10 ^ k ≤ m * 2 ^ q := by
  have hunit : (0 : ℚ) < (onGrid m q k).2 := by exact_mod_cast onGrid_snd_pos m q k
  have hten : (0 : ℚ) < 10 ^ k := by positivity
  show c * (onGrid m q k).2 ≤ (onGrid m q k).1 ↔ _
  rw [← Nat.cast_le (α := ℚ), ← mul_le_mul_iff_left₀ hten, onGrid_eq, Nat.cast_mul,
    mul_right_comm (c : ℚ), mul_le_mul_iff_left₀ hunit]

/-! ## Candidates -/

variable {b : Binary} {tie : Tie}

/-- The test that a candidate has to pass. -/
def readsBack (b : Binary) (k : ℤ) (c : ℕ) : Bool :=
  let unit := (onGrid (4 * b.mantissa) (b.exponent - 2) k).2
  let lower := (onGrid (4 * b.mantissa - b.below) (b.exponent - 2) k).1
  let upper := (onGrid (4 * b.mantissa + 2) (b.exponent - 2) k).1
  if b.mantissa % 2 = 0 then decide (lower ≤ c * unit ∧ c * unit ≤ upper)
  else decide (lower < c * unit ∧ c * unit < upper)

theorem readsBack_iff : readsBack b k c = true ↔ b.ReadsBack (c * 10 ^ k) := by
  have hlower : (onGrid (4 * b.mantissa - b.below) (b.exponent - 2) k).1 ≤
      c * (onGrid (4 * b.mantissa) (b.exponent - 2) k).2 ↔ _ := onGrid_le_iff
  have hlower' : c * (onGrid (4 * b.mantissa) (b.exponent - 2) k).2 ≤
      (onGrid (4 * b.mantissa - b.below) (b.exponent - 2) k).1 ↔ _ := le_onGrid_iff
  have hupper : c * (onGrid (4 * b.mantissa) (b.exponent - 2) k).2 ≤
      (onGrid (4 * b.mantissa + 2) (b.exponent - 2) k).1 ↔ _ := le_onGrid_iff
  have hupper' : (onGrid (4 * b.mantissa + 2) (b.exponent - 2) k).1 ≤
      c * (onGrid (4 * b.mantissa) (b.exponent - 2) k).2 ↔ _ := onGrid_le_iff
  rw [readsBack]
  split
  · next heven =>
      rw [decide_eq_true_iff, hlower, hupper]
      exact ⟨fun h => ⟨h.1, h.2, fun hodd => by omega⟩, fun h => ⟨h.lower, h.upper⟩⟩
  · next hodd =>
      rw [decide_eq_true_iff, lt_iff_lt_of_le_iff_le hlower', lt_iff_lt_of_le_iff_le hupper']
      exact ⟨fun h => ⟨h.1.le, h.2.le, fun _ => h⟩, fun h => h.odd (by omega)⟩

/-- The neighbour below the number on the grid. -/
def lowCandidate (b : Binary) (k : ℤ) : ℕ :=
  (onGrid (4 * b.mantissa) (b.exponent - 2) k).1 / (onGrid (4 * b.mantissa) (b.exponent - 2) k).2

theorem readBackOnGrid_eq (tie : Tie) (b : Binary) (k : ℤ) :
    readBackOnGrid tie b.mantissa b.exponent k =
      match readsBack b k (lowCandidate b k), readsBack b k (lowCandidate b k + 1) with
      | true, true => some (roundDiv tie (onGrid (4 * b.mantissa) (b.exponent - 2) k).1
          (onGrid (4 * b.mantissa) (b.exponent - 2) k).2)
      | true, false => some (lowCandidate b k)
      | false, true => some (lowCandidate b k + 1)
      | false, false => none :=
  rfl

theorem roundDiv_eq_or (tie : Tie) (a d : ℕ) :
    roundDiv tie a d = a / d ∨ roundDiv tie a d = a / d + 1 := by
  rw [roundDiv.eq_def]
  dsimp only
  split
  · exact .inl rfl
  · split
    · exact .inr rfl
    · cases tie with
      | up => exact .inr rfl
      | toEven =>
          dsimp only
          split
          · exact .inl rfl
          · exact .inr rfl

theorem readsBack_of_readBackOnGrid (h : readBackOnGrid tie b.mantissa b.exponent k = some c) :
    b.ReadsBack (c * 10 ^ k) := by
  rw [← readsBack_iff]
  rw [readBackOnGrid_eq] at h
  split at h
  · next hlow hhigh =>
      obtain rfl := Option.some.inj h
      rcases roundDiv_eq_or tie (onGrid (4 * b.mantissa) (b.exponent - 2) k).1
        (onGrid (4 * b.mantissa) (b.exponent - 2) k).2 with heq | heq
      · rw [heq]
        exact hlow
      · rw [heq]
        exact hhigh
  · next hlow _ =>
      obtain rfl := Option.some.inj h
      exact hlow
  · next _ hhigh =>
      obtain rfl := Option.some.inj h
      exact hhigh
  · cases h

/-- A grid that is finer than the range is wide has a point in it, next to the number. -/
theorem exists_readBackOnGrid (tie : Tie) (hpos : 0 < b.mantissa)
    (hfine : (10 : ℚ) ^ k < (2 + b.below : ℕ) * 2 ^ (b.exponent - 2)) :
    ∃ c, readBackOnGrid tie b.mantissa b.exponent k = some c := by
  have hbelow := b.below_le
  have hquarter : (0 : ℚ) < 2 ^ (b.exponent - 2) := by positivity
  have hunit := onGrid_snd_pos (4 * b.mantissa) (b.exponent - 2) k
  have hlow : (lowCandidate b k : ℚ) * 10 ^ k ≤ (4 * b.mantissa : ℕ) * 2 ^ (b.exponent - 2) :=
    le_onGrid_iff.mp (Nat.div_mul_le_self _ _)
  have hhigh : ((4 * b.mantissa : ℕ) : ℚ) * 2 ^ (b.exponent - 2) <
      (lowCandidate b k + 1 : ℕ) * 10 ^ k :=
    (lt_iff_lt_of_le_iff_le le_onGrid_iff).mp (Nat.lt_mul_of_div_lt (Nat.lt_succ_self _) hunit)
  have hsplit : ((4 * b.mantissa : ℕ) : ℚ) = (4 * b.mantissa - b.below : ℕ) + b.below := by
    rw [← Nat.cast_add]
    congr 1
    omega
  have hupper : ((4 * b.mantissa + 2 : ℕ) : ℚ) = (4 * b.mantissa : ℕ) + 2 := by push_cast; rfl
  rw [readBackOnGrid_eq]
  rcases lt_or_ge ((4 * b.mantissa - b.below : ℕ) * 2 ^ (b.exponent - 2) : ℚ)
    (lowCandidate b k * 10 ^ k) with hin | hout
  · have htest : readsBack b k (lowCandidate b k) = true :=
      readsBack_iff.mpr (Binary.readsBack_of_lt hin (by rw [hupper]; linarith))
    rw [htest]
    cases readsBack b k (lowCandidate b k + 1) with
    | true => exact ⟨_, rfl⟩
    | false => exact ⟨_, rfl⟩
  · have hstep : ((lowCandidate b k + 1 : ℕ) : ℚ) * 10 ^ k = lowCandidate b k * 10 ^ k + 10 ^ k := by
      push_cast
      ring
    have htest : readsBack b k (lowCandidate b k + 1) = true := by
      refine readsBack_iff.mpr (Binary.readsBack_of_lt ?_ ?_)
      · refine lt_of_le_of_lt ?_ hhigh
        gcongr
        omega
      · rw [hstep, hupper, hsplit]
        push_cast at hfine
        linarith
    rw [htest]
    cases readsBack b k (lowCandidate b k) with
    | true => exact ⟨_, rfl⟩
    | false => exact ⟨_, rfl⟩

/-! ## Seventeen digits -/

/-- The estimate of the decimal exponent is never more than one too high. -/
theorem ten_pow_estimate_le {e : ℤ} (hmin : -1074 ≤ e) (hmax : e ≤ 1023) :
    (10 : ℚ) ^ (e * 30103 / 100000 - 1) ≤ 2 ^ e := by
  have hup : ∀ n : Fin 1024, 10 ^ (n * 30103 / 100000 : ℕ) ≤ 10 * 2 ^ (n : ℕ) := by
    decide +kernel
  have hdown : ∀ n : Fin 1075, 2 ^ (n : ℕ) ≤ 10 ^ ((n * 30103 + 99999) / 100000 + 1 : ℕ) := by
    decide +kernel
  rcases Int.le_total 0 e with hpos | hneg
  · obtain ⟨n, rfl⟩ := Int.eq_ofNat_of_zero_le hpos
    have hn : (10 : ℚ) ^ (n * 30103 / 100000 : ℕ) ≤ 10 * 2 ^ n := by
      exact_mod_cast hup ⟨n, by omega⟩
    rw [show (n : ℤ) * 30103 / 100000 = (n * 30103 / 100000 : ℕ) by omega,
      zpow_sub_one₀ (by norm_num), zpow_natCast, zpow_natCast]
    linarith
  · obtain ⟨n, rfl⟩ := Int.exists_eq_neg_ofNat hneg
    have hn : (2 : ℚ) ^ n ≤ 10 ^ ((n * 30103 + 99999) / 100000 + 1 : ℕ) := by
      exact_mod_cast hdown ⟨n, by omega⟩
    rw [show -(n : ℤ) * 30103 / 100000 - 1 = -((n * 30103 + 99999) / 100000 + 1 : ℕ) by omega,
      zpow_neg, zpow_neg, zpow_natCast, zpow_natCast]
    exact inv_anti₀ (by positivity) hn

theorem ten_pow_leadingExponent_le (hm : 0 < m) (hmin : -1074 ≤ q + m.log2)
    (hmax : q + m.log2 ≤ 1023) : (10 : ℚ) ^ leadingExponent m q ≤ m * 2 ^ q := by
  have hreach : ∀ {k : ℤ}, (onGrid m q k).2 ≤ (onGrid m q k).1 → (10 : ℚ) ^ k ≤ m * 2 ^ q := by
    intro k h
    rw [← Nat.one_mul (onGrid m q k).2, le_onGrid_iff, Nat.cast_one, one_mul] at h
    exact h
  rw [leadingExponent]
  dsimp only
  split
  · next h => exact hreach (of_decide_eq_true h)
  · split
    · next h => exact hreach (of_decide_eq_true h)
    · calc (10 : ℚ) ^ ((q + m.log2) * 30103 / 100000 - 1) ≤ 2 ^ (q + m.log2) :=
            ten_pow_estimate_le hmin hmax
        _ = 2 ^ q * 2 ^ (m.log2 : ℤ) := zpow_add₀ (by norm_num) _ _
        _ ≤ m * 2 ^ q := by
            rw [mul_comm]
            gcongr
            exact Rounding.two_zpow_log2_le hm

theorem exists_readBackOnGrid_leadingExponent (tie : Tie) (hb : b.Canonical)
    (hpos : 0 < b.mantissa) :
    ∃ c, readBackOnGrid tie b.mantissa b.exponent (leadingExponent b.mantissa b.exponent - 16) =
      some c := by
  have hlt := hb.lt
  have hlog : b.mantissa.log2 < 53 := (Nat.log2_lt hpos.ne').mpr hlt
  have hmin := hb.le
  have hmax : b.exponent ≤ 971 := hb.exponent_le
  have hdigits : 4 * b.mantissa < (2 + b.below) * 10 ^ 16 := by
    rw [Binary.below]
    split
    · next h =>
        rw [h.1]
        decide
    · omega
  have hten := ten_pow_leadingExponent_le (q := b.exponent) hpos (by omega) (by omega)
  have hunit : (2 : ℚ) ^ b.exponent = 4 * 2 ^ (b.exponent - 2) := by
    rw [zpow_sub₀ (by norm_num)]
    norm_num
    ring
  refine exists_readBackOnGrid tie hpos ?_
  rw [zpow_sub₀ (by norm_num), div_lt_iff₀ (by positivity)]
  calc (10 : ℚ) ^ leadingExponent b.mantissa b.exponent ≤ b.mantissa * 2 ^ b.exponent := hten
    _ = (4 * b.mantissa : ℕ) * 2 ^ (b.exponent - 2) := by
        rw [hunit]
        push_cast
        ring
    _ < ((2 + b.below) * 10 ^ 16 : ℕ) * 2 ^ (b.exponent - 2) := by
        gcongr
    _ = (2 + b.below : ℕ) * 2 ^ (b.exponent - 2) * 10 ^ (16 : ℤ) := by
        push_cast
        ring

/-- The zeros at the end of the coefficient count as much in the exponent. -/
theorem dropZeros_value (fuel : ℕ) (d : Decimal) :
    ((dropZeros fuel d).coefficient : ℚ) * 10 ^ (dropZeros fuel d).exponent =
      d.coefficient * 10 ^ d.exponent := by
  induction fuel generalizing d with
  | zero => rfl
  | succ fuel ih =>
      rw [dropZeros]
      split
      · next h =>
          have hten : (d.coefficient : ℚ) = (d.coefficient / 10 : ℕ) * 10 := by
            exact_mod_cast (Nat.div_mul_cancel (Nat.dvd_of_mod_eq_zero h.2)).symm
          rw [ih, hten, zpow_add_one₀ (by norm_num)]
          ring
      · rfl

/-- The digits that are found read back to the double. -/
theorem readsBack_shortest (tie : Tie) (hb : b.Canonical) (hpos : 0 < b.mantissa) :
    b.ReadsBack ((shortest tie b).coefficient * 10 ^ (shortest tie b).exponent) := by
  rw [shortest, if_neg hpos.ne']
  dsimp only
  rw [dropZeros_value]
  cases hfound : (List.range 17).findSome? fun n =>
      (readBackOnGrid tie b.mantissa b.exponent
        (leadingExponent b.mantissa b.exponent - (n : ℕ))).map fun c =>
          (⟨c, leadingExponent b.mantissa b.exponent - (n : ℕ)⟩ : Decimal) with
  | none =>
      obtain ⟨c, hc⟩ := exists_readBackOnGrid_leadingExponent tie hb hpos
      have hnone := List.findSome?_eq_none_iff.mp hfound 16 (by decide)
      rw [Option.map_eq_none_iff] at hnone
      exact absurd (hc.symm.trans hnone) (Option.some_ne_none c)
  | some d =>
      obtain ⟨n, -, hn⟩ := List.exists_of_findSome?_eq_some hfound
      obtain ⟨c, hc, rfl⟩ := Option.map_eq_some_iff.mp hn
      exact readsBack_of_readBackOnGrid hc

end Decimal

/-! ## Digits written out -/

/-- Digits, and perhaps more digits behind a point. -/
inductive IsNumeral : List Char → Prop
  | whole {ws : List Char} (hne : ws ≠ []) (hws : ∀ c ∈ ws, c.isDigit = true) : IsNumeral ws
  | point {ws fs : List Char} (hne : ws ≠ []) (hws : ∀ c ∈ ws, c.isDigit = true)
      (hfs : ∀ c ∈ fs, c.isDigit = true) : IsNumeral (ws ++ '.' :: fs)

theorem IsNumeral.exists_cons {cs : List Char} (h : IsNumeral cs) :
    ∃ c rest, cs = c :: rest ∧ c.isDigit = true := by
  cases h with
  | whole hne hws =>
      obtain ⟨c, ws, rfl⟩ := List.exists_cons_of_ne_nil hne
      exact ⟨c, ws, rfl, hws c List.mem_cons_self⟩
  | point hne hws _ =>
      obtain ⟨c, ws, rfl⟩ := List.exists_cons_of_ne_nil hne
      exact ⟨c, _, rfl, hws c List.mem_cons_self⟩

theorem isNumeral_toDigits (n : ℕ) : IsNumeral (Nat.toDigits 10 n) :=
  .whole Nat.toDigits_ne_nil fun _ hc => Nat.isDigit_of_mem_toDigits (by decide) (by decide) hc

namespace Numeral

variable {ws fs : List Char}

theorem ofDigits_eq (ds : List Char) : ofDigits ds = Nat.ofDigitChars 10 ds 0 :=
  rfl

theorem takeWhile_isDigit (h : ∀ c ∈ ws, c.isDigit = true) : ws.takeWhile Char.isDigit = ws :=
  List.takeWhile_eq_self_iff.mpr h

theorem dropWhile_isDigit (h : ∀ c ∈ ws, c.isDigit = true) : ws.dropWhile Char.isDigit = [] :=
  List.dropWhile_eq_nil_iff.mpr h

/-- Digits alone are a whole number. -/
theorem unsigned?_whole (hne : ws ≠ []) (hws : ∀ c ∈ ws, c.isDigit = true) :
    unsigned? ws = some (nearest (ofDigits ws) 0) := by
  obtain ⟨c, cs, rfl⟩ := List.exists_cons_of_ne_nil hne
  rw [unsigned?, takeWhile_isDigit hws, dropWhile_isDigit hws]
  simp [exponentOf?]

/-- The digits behind a point count towards a lower exponent. -/
theorem unsigned?_point (hne : ws ≠ []) (hws : ∀ c ∈ ws, c.isDigit = true)
    (hfs : ∀ c ∈ fs, c.isDigit = true) :
    unsigned? (ws ++ '.' :: fs) = some (nearest (ofDigits (ws ++ fs)) (-fs.length)) := by
  have htake : (ws ++ '.' :: fs).takeWhile Char.isDigit = ws := by
    rw [List.takeWhile_append_of_pos hws, List.takeWhile_cons_of_neg (by decide), List.append_nil]
  have hdrop : (ws ++ '.' :: fs).dropWhile Char.isDigit = '.' :: fs := by
    rw [List.dropWhile_append_of_pos hws, List.dropWhile_cons_of_neg (by decide)]
  obtain ⟨c, cs, rfl⟩ := List.exists_cons_of_ne_nil hne
  rw [unsigned?, htake, hdrop]
  simp [takeWhile_isDigit hfs, dropWhile_isDigit hfs, exponentOf?]

end Numeral

namespace Decimal

theorem isDigit_digits (d : Decimal) : ∀ c ∈ d.digits, c.isDigit = true :=
  fun _ hc => Nat.isDigit_of_mem_toDigits (by decide) (by decide) hc

theorem isDigit_replicate (n : ℕ) : ∀ c ∈ List.replicate n '0', c.isDigit = true := by
  intro c hc
  rw [List.eq_of_mem_replicate hc]
  decide

/-- The digits have zeros behind them, or a point among them, with zeros in front where there are too
few. -/
theorem plain_cases (d : Decimal) :
    (0 ≤ d.exponent ∧ d.plain.toList = d.digits ++ List.replicate d.exponent.toNat '0') ∨
      ∃ zeros ws fs, ws ≠ [] ∧ d.plain.toList = ws ++ '.' :: fs ∧
        ws ++ fs = List.replicate zeros '0' ++ d.digits ∧ -(fs.length : ℤ) = d.exponent := by
  rw [plain]
  dsimp only
  split
  · next hexponent => exact .inl ⟨hexponent, String.toList_ofList⟩
  · refine .inr ?_
    split
    · next hplaces =>
        refine ⟨0, _, _, ?_, String.toList_ofList, List.take_append_drop _ _, ?_⟩
        · rw [← List.length_pos_iff, List.length_take]
          omega
        · rw [List.length_drop]
          omega
    · refine ⟨d.exponent.natAbs - d.digits.length + 1, ['0'],
        List.replicate (d.exponent.natAbs - d.digits.length) '0' ++ d.digits,
        List.cons_ne_nil _ _, String.toList_ofList, ?_, ?_⟩
      · rw [List.replicate_succ, List.singleton_append, List.cons_append]
      · rw [List.length_append, List.length_replicate]
        omega

theorem isNumeral_plain (d : Decimal) : IsNumeral d.plain.toList := by
  have hdigits : ∀ n, ∀ c ∈ List.replicate n '0' ++ d.digits, c.isDigit = true := fun n =>
    List.forall_mem_append.mpr ⟨isDigit_replicate n, d.isDigit_digits⟩
  rcases d.plain_cases with ⟨-, hplain⟩ | ⟨n, ws, fs, hne, hplain, hall, -⟩
  · rw [hplain]
    exact .whole (List.append_ne_nil_of_left_ne_nil Nat.toDigits_ne_nil _)
      (List.forall_mem_append.mpr ⟨d.isDigit_digits, isDigit_replicate _⟩)
  · obtain ⟨hws, hfs⟩ := List.forall_mem_append.mp (hall ▸ hdigits n)
    rw [hplain]
    exact .point hne hws hfs

/-- The digits written out are read as the number. -/
theorem unsigned?_plain (d : Decimal) :
    ∃ c k, Numeral.unsigned? d.plain.toList = some (Numeral.nearest c k) ∧
      (c : ℚ) * 10 ^ k = d.coefficient * 10 ^ d.exponent := by
  have hvalue : Nat.ofDigitChars 10 d.digits 0 = d.coefficient := Nat.ofDigitChars_ten_toDigits
  rcases d.plain_cases with ⟨hexponent, hplain⟩ | ⟨n, ws, fs, hne, hplain, hall, hlength⟩
  · refine ⟨d.coefficient * 10 ^ d.exponent.toNat, 0, ?_, ?_⟩
    · have hne : d.digits ≠ [] := Nat.toDigits_ne_nil
      rw [hplain, Numeral.unsigned?_whole (List.append_ne_nil_of_left_ne_nil hne _)
        (List.forall_mem_append.mpr ⟨d.isDigit_digits, isDigit_replicate _⟩), Numeral.ofDigits_eq,
        Nat.ofDigitChars_append, hvalue, Nat.ofDigitChars_replicate_zero, mul_comm]
    · rw [zpow_zero, mul_one]
      push_cast
      rw [← zpow_natCast, Int.toNat_of_nonneg hexponent]
  · have hdigits : ∀ c ∈ ws ++ fs, c.isDigit = true := by
      rw [hall]
      exact List.forall_mem_append.mpr ⟨isDigit_replicate n, d.isDigit_digits⟩
    obtain ⟨hws, hfs⟩ := List.forall_mem_append.mp hdigits
    refine ⟨d.coefficient, d.exponent, ?_, rfl⟩
    rw [hplain, Numeral.unsigned?_point hne hws hfs, hall, hlength, Numeral.ofDigits_eq,
      Nat.ofDigitChars_append, Nat.ofDigitChars_replicate_zero, mul_zero, hvalue]

/-- The shortest digits of a double, written out, are read as the double. -/
theorem unsigned?_plain_shortest {b : Binary} (tie : Tie) (hb : b.Canonical)
    (hs : b.negative = false) :
    Numeral.unsigned? (shortest tie b).plain.toList = some b.toFloat := by
  rcases Nat.eq_zero_or_pos b.mantissa with hzero | hpos
  · have hb' : b = ⟨false, 0, -1074⟩ := by
      obtain ⟨negative, mantissa, exponent⟩ := b
      dsimp only at hs hzero
      subst hs
      subst hzero
      rcases hb with ⟨-, he⟩ | ⟨hm, -⟩
      · rw [show exponent = -1074 from he]
      · exact absurd (show 2 ^ 52 ≤ 0 from hm) (by decide)
    rw [shortest, if_pos hzero, hb']
    decide
  · obtain ⟨c, k, hread, hvalue⟩ := unsigned?_plain (shortest tie b)
    have hshortest := readsBack_shortest tie hb hpos
    rw [← hvalue] at hshortest
    rw [hread, hshortest.nearest_eq hb hpos hs]

end Decimal

end SymbolicRegression
