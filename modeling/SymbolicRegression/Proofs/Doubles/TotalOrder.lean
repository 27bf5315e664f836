import SymbolicRegression.Proofs.Doubles.Bits
import SymbolicRegression.Proofs.FloatOrder
import SymbolicRegression.Search

/-!
# The total order of doubles

The total order compares bit patterns, so no two doubles have the same place in it, and it refines the
order of numbers: what comes first among finite doubles is not greater.
-/

namespace SymbolicRegression

namespace TotalOrder

/-- The place of a double in the total order. -/
def place (x : Float) : Nat :=
  totalOrderKey x.toBits

theorem eq_of_place_eq {x y : Float} (h : place x = place y) : x = y := by
  apply Binary.eq_of_toBits_eq
  apply UInt64.toNat_inj.mp
  have hx : x.toBits.toNat < 2 ^ 64 := x.toBits.toBitVec.isLt
  have hy : y.toBits.toNat < 2 ^ 64 := y.toBits.toBitVec.isLt
  change (if 2 ^ 63 ≤ x.toBits.toNat then 2 ^ 64 - 1 - x.toBits.toNat else 2 ^ 63 + x.toBits.toNat) =
    (if 2 ^ 63 ≤ y.toBits.toNat then 2 ^ 64 - 1 - y.toBits.toNat else 2 ^ 63 + y.toBits.toNat) at h
  split at h <;> split at h <;> omega

/-! ## Finite doubles -/

theorem magnitudeBits_lt {b : Binary} (h : b.Canonical) : b.magnitudeBits < 2 ^ 63 := by
  rw [Binary.magnitudeBits]
  rcases h with ⟨hm, -⟩ | ⟨hlow, hhigh, -, he⟩
  · rw [if_pos hm]
    omega
  · rw [if_neg (by omega)]
    omega

/-- The place of a finite double: the magnitudes go up from the middle, and down below it. -/
theorem place_eq {x : Float} {b : Binary} (h : Binary.ofFloat? x = some b) :
    place x = if b.negative then 2 ^ 63 - 1 - b.magnitudeBits else 2 ^ 63 + b.magnitudeBits := by
  obtain ⟨hcanonical, -, hbits⟩ := Binary.ofFloat?_eq_some h
  have hlt := magnitudeBits_lt hcanonical
  change (if 2 ^ 63 ≤ x.toBits.toNat then 2 ^ 64 - 1 - x.toBits.toNat
    else 2 ^ 63 + x.toBits.toNat) = _
  rw [hbits, Binary.bits]
  cases b.negative with
  | true =>
      rw [if_pos rfl, if_pos rfl, if_pos (by omega)]
      omega
  | false =>
      rw [if_neg Bool.false_ne_true, if_neg Bool.false_ne_true, if_neg (by omega)]
      omega

/-- More bits are a greater exponent, or the same one and a mantissa that is not smaller. -/
theorem lex_of_magnitudeBits_le {b b' : Binary} (h : b.Canonical) (h' : b'.Canonical)
    (hle : b.magnitudeBits ≤ b'.magnitudeBits) :
    b.exponent < b'.exponent ∨ b.exponent = b'.exponent ∧ b.mantissa ≤ b'.mantissa := by
  rw [Binary.magnitudeBits, Binary.magnitudeBits] at hle
  rcases h with ⟨hm, he⟩ | ⟨hlow, hhigh, hmin, hmax⟩
  · rcases h' with ⟨hm', he'⟩ | ⟨hlow', hhigh', hmin', hmax'⟩
    · rw [if_pos hm, if_pos hm'] at hle
      omega
    · omega
  · rcases h' with ⟨hm', he'⟩ | ⟨hlow', hhigh', hmin', hmax'⟩
    · rw [if_neg (by omega), if_pos hm'] at hle
      omega
    · rw [if_neg (by omega), if_neg (by omega)] at hle
      omega

open FloatOrder in
/-- Unpacked numbers without a sign compare as their bits do. -/
theorem rankOf_mono {b b' : Binary} (h : b.Canonical) (h' : b'.Canonical)
    (hle : b.magnitudeBits ≤ b'.magnitudeBits) :
    rankOf (Binary.unpacked ⟨false, b.mantissa, b.exponent⟩) ≤
        rankOf (Binary.unpacked ⟨false, b'.mantissa, b'.exponent⟩) ∧
      rankOf (Binary.unpacked ⟨true, b'.mantissa, b'.exponent⟩) ≤
        rankOf (Binary.unpacked ⟨true, b.mantissa, b.exponent⟩) := by
  have hlex := lex_of_magnitudeBits_le h h' hle
  rw [Binary.unpacked, Binary.unpacked, Binary.unpacked, Binary.unpacked]
  by_cases hzero : b.mantissa = 0
  · rw [dif_pos hzero, dif_pos hzero]
    by_cases hzero' : b'.mantissa = 0
    · rw [dif_pos hzero', dif_pos hzero']
      exact ⟨le_rfl, le_rfl⟩
    · rw [dif_neg hzero', dif_neg hzero']
      exact ⟨Prod.Lex.toLex_le_toLex.mpr (.inl zero_lt_one),
        Prod.Lex.toLex_le_toLex.mpr (.inl neg_one_lt_zero)⟩
  · have hzero' : b'.mantissa ≠ 0 := by
      rcases h with h | h <;> rcases h' with h' | h' <;> omega
    rw [dif_neg hzero, dif_neg hzero, dif_neg hzero', dif_neg hzero']
    constructor
    · refine Prod.Lex.toLex_le_toLex.mpr (.inr ⟨rfl, Prod.Lex.toLex_le_toLex.mpr ?_⟩)
      show b.exponent < b'.exponent ∨ b.exponent = b'.exponent ∧ (b.mantissa : ℤ) ≤ b'.mantissa
      omega
    · refine Prod.Lex.toLex_le_toLex.mpr (.inr ⟨rfl, Prod.Lex.toLex_le_toLex.mpr ?_⟩)
      show -b'.exponent < -b.exponent ∨
        -b'.exponent = -b.exponent ∧ -(b'.mantissa : ℤ) ≤ -(b.mantissa : ℤ)
      omega

open FloatOrder in
/-- The total order of finite doubles goes with the order of numbers. -/
theorem le_of_place_le {x y : Float} (hx : x.isFinite = true) (hy : y.isFinite = true)
    (h : place x ≤ place y) : x ≤ y := by
  refine le_iff.2 ⟨⟨isNaN_eq_false_of_isFinite hx, isNaN_eq_false_of_isFinite hy⟩, ?_⟩
  obtain ⟨⟨s, m, e⟩, hb⟩ := Binary.exists_of_isFinite hx
  obtain ⟨⟨s', m', e'⟩, hb'⟩ := Binary.exists_of_isFinite hy
  obtain ⟨hcanonical, hunpack, -⟩ := Binary.ofFloat?_eq_some hb
  obtain ⟨hcanonical', hunpack', -⟩ := Binary.ofFloat?_eq_some hb'
  have hlt := magnitudeBits_lt hcanonical
  have hlt' := magnitudeBits_lt hcanonical'
  rw [place_eq hb, place_eq hb'] at h
  show rankOf x.toModel.unpack ≤ rankOf y.toModel.unpack
  rw [hunpack, hunpack']
  cases s with
  | false =>
      cases s' with
      | false =>
          rw [if_neg Bool.false_ne_true, if_neg Bool.false_ne_true] at h
          exact (rankOf_mono hcanonical hcanonical' (by omega)).1
      | true =>
          rw [if_neg Bool.false_ne_true, if_pos rfl] at h
          omega
  | true =>
      cases s' with
      | false =>
          -- zero lies between them
          have hzero : Binary.Canonical ⟨false, 0, -1074⟩ := .inl ⟨by decide, rfl⟩
          exact (rankOf_mono hzero hcanonical (Nat.zero_le _)).2.trans
            (rankOf_mono hzero hcanonical' (Nat.zero_le _)).1
      | true =>
          rw [if_pos rfl, if_pos rfl] at h
          exact (rankOf_mono hcanonical' hcanonical (by omega)).2

end TotalOrder

end SymbolicRegression
