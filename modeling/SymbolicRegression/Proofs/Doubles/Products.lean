import SymbolicRegression.Proofs.Doubles.Decimals
import SymbolicRegression.Proofs.Doubles.TotalOrder

/-!
# Products keep the order

Rounding keeps the order of numbers: of two numbers the smaller one has no greater exponent, and on
the grid of one exponent no greater nearest integer. Where the exponents differ, the smaller number is
rounded to at most the power of two that the greater one is rounded to at least. So the products of a
positive double with two doubles are ordered as these are, where the products are in range, and
however small they are.
-/

namespace SymbolicRegression

open Float.Model (Format UnpackedFloat)
open Float.Model.UnpackedFloat

namespace Rounding

variable {r r' : ℚ} {n n' : ℕ} {E E' : ℤ}

theorem IsNearest.mono (hn : IsNearest r n) (hn' : IsNearest r' n') (h : r ≤ r') : n ≤ n' := by
  by_contra hlt
  have hstep : (n' : ℚ) + 1 ≤ n := by exact_mod_cast Nat.lt_of_not_le hlt
  have hlower := hn.lower
  have hupper := hn'.upper
  -- the middle between two neighbours is the only number that both can be nearest to
  have heq : r = r' := by linarith
  subst heq
  exact hlt (hn.unique hn').le

theorem IsTarget.mono (hE : IsTarget r E) (hE' : IsTarget r' E') (h : r ≤ r') : E ≤ E' := by
  rcases hE.lower with rfl | hlower
  · exact hE'.least
  · have hlt : (2 : ℚ) ^ (52 + E) < 2 ^ (53 + E') := (hlower.trans h).trans_lt hE'.upper
    have := (zpow_lt_zpow_iff_right₀ (by norm_num)).mp hlt
    omega

/-- The number is rounded to this one: to the nearest integer on the grid of its exponent. -/
structure RoundsTo (r : ℚ) (n : ℕ) (E : ℤ) : Prop where
  target : IsTarget r E
  nearest : IsNearest (r / 2 ^ E) n
  bits : n ≤ 2 ^ 53

theorem RoundsTo.mono (hr : RoundsTo r n E) (hr' : RoundsTo r' n' E') (h : r ≤ r') :
    (n : ℚ) * 2 ^ E ≤ n' * 2 ^ E' := by
  rcases (hr.target.mono hr'.target h).lt_or_eq with hlt | rfl
  · have hbits : (n : ℚ) ≤ 2 ^ (53 : ℤ) := by exact_mod_cast hr.bits
    have hbits' : (2 : ℚ) ^ (52 : ℤ) ≤ n' := by
      have hleast := hr.target.least
      exact_mod_cast hr'.nearest.le_of_bits (hr'.target.lower.resolve_left (by omega))
    calc (n : ℚ) * 2 ^ E ≤ 2 ^ (53 : ℤ) * 2 ^ E := by gcongr
      _ = 2 ^ (53 + E) := (zpow_add₀ (by norm_num) _ _).symm
      _ ≤ 2 ^ (52 + E') := zpow_le_zpow_right₀ (by norm_num) (by omega)
      _ = 2 ^ (52 : ℤ) * 2 ^ E' := zpow_add₀ (by norm_num) _ _
      _ ≤ n' * 2 ^ E' := by gcongr
  · have hle : n ≤ n' := hr.nearest.mono hr'.nearest (by gcongr)
    gcongr

end Rounding

namespace Binary

open Rounding

variable {b b' p p' q : Binary} {x y z : Float} {r : ℚ} {n : ℕ} {E : ℤ}

/-! ## Magnitudes -/

/-- A double that is rounded to has the sign and the magnitude of the rounded number. -/
theorem magnitude_of_rounded {s : Bool} (hn : n ≤ 2 ^ 53)
    (h : rounded (Bits.signOf s) n E = b.unpacked) :
    b.negative = s ∧ b.magnitude = n * 2 ^ E := by
  have hsign : ∀ {s t : Bool}, Bits.signOf s = Bits.signOf t → t = s := by
    intro s t h
    rw [← beq_signOf s, ← beq_signOf t, h]
  rw [rounded, unpacked] at h
  rw [magnitude]
  split at h
  · next hzero =>
    split at h
    · next hmantissa =>
      rw [hzero, hmantissa, Nat.cast_zero, zero_mul, zero_mul]
      exact ⟨hsign (UnpackedFloat.zero.inj h), rfl⟩
    · cases h
  · split at h
    · split at h
      · cases h
      · obtain ⟨hs, hmantissa, hexponent⟩ := UnpackedFloat.finite.inj h
        rw [hmantissa, hexponent]
        exact ⟨hsign hs, rfl⟩
    · next hcarry =>
      split at h
      · cases h
      · obtain ⟨hs, hmantissa, hexponent⟩ := UnpackedFloat.finite.inj h
        refine ⟨hsign hs, ?_⟩
        rw [← hmantissa, ← hexponent, show n = 2 ^ 53 by omega, zpow_add₀ (by norm_num)]
        norm_num
        ring

/-- A greater magnitude has no fewer bits. -/
theorem magnitudeBits_mono (hb : b.Canonical) (hb' : b'.Canonical)
    (h : b.magnitude ≤ b'.magnitude) : b.magnitudeBits ≤ b'.magnitudeBits := by
  by_contra hlt
  rcases TotalOrder.lex_of_magnitudeBits_le hb' hb (Nat.le_of_not_le hlt) with
    hexponent | ⟨hexponent, -⟩
  · have hnormal : (2 : ℚ) ^ (52 : ℤ) ≤ b.mantissa := by
      have hleast := hb'.le
      rcases hb with ⟨-, he⟩ | ⟨hlow, -⟩
      · omega
      · exact_mod_cast hlow
    have hbits : (b'.mantissa : ℚ) < 2 ^ (53 : ℤ) := by exact_mod_cast hb'.lt
    have hgreater : b'.magnitude < b.magnitude := by
      calc (b'.mantissa : ℚ) * 2 ^ b'.exponent < 2 ^ (53 : ℤ) * 2 ^ b'.exponent := by gcongr
        _ = 2 ^ (53 + b'.exponent) := (zpow_add₀ (by norm_num) _ _).symm
        _ ≤ 2 ^ (52 + b.exponent) := zpow_le_zpow_right₀ (by norm_num) (by omega)
        _ = 2 ^ (52 : ℤ) * 2 ^ b.exponent := zpow_add₀ (by norm_num) _ _
        _ ≤ b.mantissa * 2 ^ b.exponent := by gcongr
    exact absurd h hgreater.not_ge
  · rw [magnitude, magnitude, hexponent] at h
    have hmantissa : b.mantissa ≤ b'.mantissa := by
      exact_mod_cast le_of_mul_le_mul_right h (by positivity)
    have hleast := hb.le
    apply hlt
    rw [magnitudeBits, magnitudeBits, hexponent]
    split <;> split <;> omega

/-- Doubles without a sign are ordered by their magnitudes. -/
theorem toFloat_le_toFloat (hb : b.Canonical) (hb' : b'.Canonical) (hs : b.negative = false)
    (hs' : b'.negative = false) (h : b.magnitude ≤ b'.magnitude) : b.toFloat ≤ b'.toFloat := by
  have hread := ofFloat?_toFloat hb
  have hread' := ofFloat?_toFloat hb'
  apply TotalOrder.le_of_place_le (isFinite_iff.mpr ⟨b, hread⟩) (isFinite_iff.mpr ⟨b', hread'⟩)
  rw [TotalOrder.place_eq hread, TotalOrder.place_eq hread', hs, hs']
  exact Nat.add_le_add_left (magnitudeBits_mono hb hb' h) _

/-- A positive double is read without a sign. -/
theorem exists_of_pos (hfinite : x.isFinite = true) (hpos : ¬x ≤ Float.ofNat 0) :
    ∃ b, ofFloat? x = some b ∧ b.negative = false ∧ 0 < b.mantissa := by
  obtain ⟨b, hb⟩ := exists_of_isFinite hfinite
  have hnan : (Float.ofNat 0).isNaN = false := by decide
  have hzero : FloatOrder.rank (Float.ofNat 0) = toLex (0, toLex (0, 0)) := by decide
  have hrank : toLex (0, toLex (0, 0)) < FloatOrder.rank x := by
    rw [← hzero, ← not_le]
    exact fun hle => hpos
      (FloatOrder.le_iff.2 ⟨⟨FloatOrder.isNaN_eq_false_of_isFinite hfinite, hnan⟩, hle⟩)
  rw [FloatOrder.rank, (ofFloat?_eq_some hb).2.1, unpacked] at hrank
  split at hrank
  · exact absurd hrank (lt_irrefl _)
  · next hmantissa =>
    refine ⟨b, hb, ?_, Nat.pos_of_ne_zero hmantissa⟩
    cases hs : b.negative with
    | false => rfl
    | true =>
        rw [hs] at hrank
        have hsign : (0 : ℤ) ≤ -1 := Prod.Lex.monotone_fst _ _ hrank.le
        exact absurd hsign (by decide)

/-! ## Products -/

/-- A product in range is a double that the exact product is rounded to. -/
theorem exists_toFloat_mul (hx : ofFloat? x = some p) (hy : ofFloat? y = some q)
    (hp : 2 ^ 52 ≤ p.mantissa) (hq : 0 < q.mantissa) (hps : p.negative = false)
    (hqs : q.negative = false) (hrange : p.magnitude * q.magnitude < 2 ^ (1023 : ℤ)) :
    ∃ b : Binary, b.Canonical ∧ b.negative = false ∧ x * y = b.toFloat ∧
      ∃ n E, RoundsTo (p.magnitude * q.magnitude) n E ∧ b.magnitude = n * 2 ^ E := by
  have hppos : 0 < p.mantissa := by omega
  have hr : ((p.mantissa * q.mantissa : ℕ) : ℚ) * 2 ^ (p.exponent + q.exponent) =
      p.magnitude * q.magnitude := by
    rw [magnitude, magnitude, zpow_add₀ (by norm_num), Nat.cast_mul]
    ring
  have hbits : 2 ^ 52 ≤ p.mantissa * q.mantissa := Nat.le_mul_of_pos_right _ hq |>.trans' hp
  have hreads : Rounding.Reads (.ofMantissaAndAccuracy (p.mantissa * q.mantissa) .exact)
      (p.magnitude * q.magnitude / 2 ^ (p.exponent + q.exponent)) := by
    rw [← hr, mul_div_cancel_right₀ _ (by positivity)]
    exact reads_exact _
  obtain ⟨E, hmax, hE⟩ :=
    exists_isTarget (mul_pos (magnitude_pos hppos) (magnitude_pos hq)) hrange
  obtain ⟨n, hle, hn, hround⟩ :=
    Rounding.roundWithAccuracy_eq .positive hreads hE (le_of_isTarget hE hr hbits)
  obtain ⟨b, hb, hunpacked⟩ := exists_canonical_rounded false hE hmax hn hle
  obtain ⟨hs, hmagnitude⟩ := magnitude_of_rounded hle hunpacked
  refine ⟨b, hb, hs, ?_, n, E, ⟨hE, hn, hle⟩, hmagnitude⟩
  show Float.ofModel (.pack (.mul Format.binary64 x.toModel.unpack y.toModel.unpack)) = _
  rw [(ofFloat?_eq_some hx).2.1, (ofFloat?_eq_some hy).2.1, unpacked_of_pos hppos,
    unpacked_of_pos hq, hps, hqs, toFloat, ← hunpacked]
  exact congrArg (fun u => Float.ofModel (.pack u)) hround

/-- Products with a positive double are ordered as the factors are. -/
theorem mul_le_mul (hx : ofFloat? x = some p) (hy : ofFloat? y = some p')
    (hz : ofFloat? z = some q) (hp : 2 ^ 52 ≤ p.mantissa) (hp' : 2 ^ 52 ≤ p'.mantissa)
    (hq : 0 < q.mantissa) (hps : p.negative = false) (hps' : p'.negative = false)
    (hqs : q.negative = false) (hle : p.magnitude ≤ p'.magnitude)
    (hrange : p'.magnitude * q.magnitude < 2 ^ (1023 : ℤ)) : x * z ≤ y * z := by
  have hproducts : p.magnitude * q.magnitude ≤ p'.magnitude * q.magnitude :=
    mul_le_mul_of_nonneg_right hle (magnitude_pos hq).le
  obtain ⟨b, hb, hs, heq, n, E, hrounds, hmagnitude⟩ :=
    exists_toFloat_mul hx hz hp hq hps hqs (hproducts.trans_lt hrange)
  obtain ⟨b', hb', hs', heq', n', E', hrounds', hmagnitude'⟩ :=
    exists_toFloat_mul hy hz hp' hq hps' hqs hrange
  rw [heq, heq']
  apply toFloat_le_toFloat hb hb' hs hs'
  rw [hmagnitude, hmagnitude']
  exact hrounds.mono hrounds' hproducts

end Binary

end SymbolicRegression
