import SymbolicRegression.Proofs.Doubles.Decimals

/-!
# Sums up to the sign of a zero

Leaving zeros out of a sum does not change it as a number. It may change its representation: the
sum of `-0` and `+0` is `+0`, and without the second term it is `-0`. So the partial sums with and
without the zeros are not the same doubles, and what is carried along a sum is that they are the
same up to the sign of a zero, `SameValue`. A comparison does not see that sign, and a quotient only
hands it on as long as the divisor is no zero.

An undefined term is not a zero, however small its weight: it makes the whole sum undefined.
-/

namespace SymbolicRegression

open Float.Model (UnpackedFloat)
open Float.Model.UnpackedFloat (Sign)

/-- The same unpacked number, or two zeros. -/
inductive Alike : UnpackedFloat → UnpackedFloat → Prop
  | refl (u : UnpackedFloat) : Alike u u
  | zeros (s t : Sign) : Alike (.zero s) (.zero t)

namespace Alike

variable {u u' v v' : UnpackedFloat}

theorem trans {w : UnpackedFloat} (h : Alike u v) (h' : Alike v w) : Alike u w := by
  cases h with
  | refl => exact h'
  | zeros s t =>
    cases h' with
    | refl => exact .zeros s t
    | zeros _ r => exact .zeros s r

theorem add (h : Alike u u') (v : UnpackedFloat) :
    Alike (.add .binary64 u v) (.add .binary64 u' v) := by
  cases h with
  | refl => exact .refl _
  | zeros s t =>
    cases v with
    | notANumber => exact .refl _
    | infinity r => exact .refl _
    | finite r m e hm => exact .refl _
    | zero r => cases s <;> cases t <;> cases r <;> exact .zeros _ _

/-- A zero term changes at most the sign of a zero. -/
theorem add_zero (u : UnpackedFloat) (s : Sign) : Alike (.add .binary64 u (.zero s)) u := by
  cases u with
  | notANumber => exact .refl _
  | infinity r => exact .refl _
  | finite r m e hm => exact .refl _
  | zero r => cases r <;> cases s <;> exact .zeros _ _

theorem div (h : Alike u u') (hv : ∀ s, v ≠ .zero s) :
    Alike (.div .binary64 u v) (.div .binary64 u' v) := by
  cases h with
  | refl => exact .refl _
  | zeros s t =>
    cases v with
    | notANumber => exact .refl _
    | infinity r => exact .zeros _ _
    | finite r m e hm => exact .zeros _ _
    | zero r => exact absurd rfl (hv r)

theorem eq_of_ne_zero (h : Alike u v) (hv : ∀ s, v ≠ .zero s) : u = v := by
  cases h with
  | refl => rfl
  | zeros s t => exact absurd rfl (hv t)

theorem isNaN_eq (h : Alike u v) : u.isNaN = v.isNaN := by
  cases h <;> rfl

theorem isFinite_eq (h : Alike u v) : u.isFinite = v.isFinite := by
  cases h <;> rfl

theorem rankOf_eq (h : Alike u v) : FloatOrder.rankOf u = FloatOrder.rankOf v := by
  cases h <;> rfl

/-- The number that is read off the bits that a number is packed into. -/
def repack (u : UnpackedFloat) : UnpackedFloat :=
  (Float.Model.pack u).unpack

theorem repack_zero (s : Sign) : repack (.zero s) = .zero s := by
  cases s <;> rfl

theorem isNaN_repack : (repack .notANumber).isNaN = true := rfl

theorem repack_alike (h : Alike u v) : Alike (repack u) (repack v) := by
  cases h with
  | refl => exact .refl _
  | zeros s t =>
    rw [repack_zero, repack_zero]
    exact .zeros s t

/-- What has been read off a double is packed into the same double. -/
theorem repack_unpack (x : Float) : repack x.toModel.unpack = x.toModel.unpack := by
  rcases Binary.ofFloat?_cases x with ⟨-, hinfinite⟩ | ⟨b, hb, -, hunpack, -⟩
  · cases hu : x.toModel.unpack with
    | notANumber => rfl
    | infinity s => cases s <;> rfl
    | zero s => rw [hu] at hinfinite; cases hinfinite
    | finite s m e hm => rw [hu] at hinfinite; cases hinfinite
  · have hfloat := Binary.toFloat_of_ofFloat? hb
    calc repack x.toModel.unpack = b.toFloat.toModel.unpack := by rw [hunpack]; rfl
      _ = x.toModel.unpack := by rw [hfloat]

end Alike

/-- Two doubles that are the same, or two zeros. -/
def SameValue (x y : Float) : Prop :=
  Alike x.toModel.unpack y.toModel.unpack

variable {x y z w l : Float}

/-- Only the zeros equal zero. -/
theorem beq_zero_iff : (x == 0) = true ↔ ∃ s, x.toModel.unpack = .zero s := by
  have hzero : Binary.ofFloat? 0 = some ⟨false, 0, -1074⟩ := by decide
  constructor
  · intro h
    obtain ⟨p, hp, hmantissa, -⟩ := Binary.exists_of_beq hzero h
    have hunpack := (Binary.ofFloat?_eq_some hp).2.1
    rw [Binary.unpacked, dif_pos hmantissa] at hunpack
    exact ⟨_, hunpack⟩
  · rintro ⟨s, hs⟩
    refine FloatOrder.beq_iff.2 ⟨⟨?_, by decide⟩, ?_⟩
    · show x.toModel.unpack.isNaN = false
      rw [hs]
      rfl
    · rw [FloatOrder.rank, hs]
      rfl

namespace SameValue

theorem refl (x : Float) : SameValue x x := Alike.refl _

theorem trans (h : SameValue x y) (h' : SameValue y z) : SameValue x z := Alike.trans h h'

theorem add (h : SameValue x y) (z : Float) : SameValue (x + z) (y + z) :=
  (Alike.add h _).repack_alike

theorem add_zero (x : Float) (h : (z == 0) = true) : SameValue (x + z) x := by
  obtain ⟨s, hs⟩ := beq_zero_iff.1 h
  have hadd := (Alike.add_zero x.toModel.unpack s).repack_alike
  rw [Alike.repack_unpack, ← hs] at hadd
  exact hadd

theorem beq_zero (h : SameValue x y) : (x == 0) = (y == 0) := by
  rw [Bool.eq_iff_iff, FloatOrder.beq_iff, FloatOrder.beq_iff, FloatOrder.rank,
    show x.isNaN = y.isNaN from Alike.isNaN_eq h, Alike.rankOf_eq h]
  rfl

theorem div (h : SameValue x y) {t t' : Float} (ht : SameValue t t') (hne : ¬(t' == 0) = true) :
    SameValue (x / t) (y / t') := by
  have hnonzero : ∀ s, t'.toModel.unpack ≠ .zero s := fun s hs => hne (beq_zero_iff.2 ⟨s, hs⟩)
  have hdivisor : t.toModel.unpack = t'.toModel.unpack := Alike.eq_of_ne_zero ht hnonzero
  have hquotient : x / t = x / t' := by
    show Float.ofModel (.pack (.div .binary64 x.toModel.unpack t.toModel.unpack)) = _
    rw [hdivisor]
    rfl
  rw [hquotient]
  exact (Alike.div h hnonzero).repack_alike

theorem sanitize (h : SameValue x y) : SameValue (Number.sanitize x) (Number.sanitize y) := by
  rw [Number.sanitize, Number.sanitize, show x.isFinite = y.isFinite from Alike.isFinite_eq h]
  split
  · exact h
  · exact refl _

/-- Comparison does not see the sign of a zero. -/
theorem beq (h : SameValue x y) (hx : x.isNaN = false) : (x == y) = true := by
  have hy : y.isNaN = false := (Alike.isNaN_eq h).symm.trans hx
  exact FloatOrder.beq_iff.2 ⟨⟨hx, hy⟩, Alike.rankOf_eq h⟩

end SameValue

/-! ## Undefined numbers -/

theorem unpack_of_isNaN (h : x.isNaN = true) : x.toModel.unpack = .notANumber := by
  change x.toModel.unpack.isNaN = true at h
  cases hu : x.toModel.unpack with
  | notANumber => rfl
  | infinity s => rw [hu] at h; cases h
  | zero s => rw [hu] at h; cases h
  | finite s m e hm => rw [hu] at h; cases h

theorem isNaN_add_left (h : x.isNaN = true) (z : Float) : (x + z).isNaN = true := by
  show (Alike.repack (.add .binary64 x.toModel.unpack z.toModel.unpack)).isNaN = true
  rw [unpack_of_isNaN h]
  exact Alike.isNaN_repack

theorem isNaN_add_right (x : Float) (h : z.isNaN = true) : (x + z).isNaN = true := by
  show (Alike.repack (.add .binary64 x.toModel.unpack z.toModel.unpack)).isNaN = true
  rw [unpack_of_isNaN h]
  cases x.toModel.unpack <;> exact Alike.isNaN_repack

theorem isNaN_div (h : x.isNaN = true) (z : Float) : (x / z).isNaN = true := by
  show (Alike.repack (.div .binary64 x.toModel.unpack z.toModel.unpack)).isNaN = true
  rw [unpack_of_isNaN h]
  exact Alike.isNaN_repack

theorem sanitize_of_isNaN (h : x.isNaN = true) : Number.sanitize x = Number.nonFiniteSentinel := by
  have hinfinite : x.isFinite = false := by
    show x.toModel.unpack.isFinite = false
    rw [unpack_of_isNaN h]
    rfl
  rw [Number.sanitize, hinfinite, if_neg (by decide)]

/-! ## Terms of weight zero -/

theorem mul_beq_zero (hw : (w == 0) = true) (hl : l.isFinite = true) : (w * l == 0) = true := by
  obtain ⟨s, hs⟩ := beq_zero_iff.1 hw
  change l.toModel.unpack.isFinite = true at hl
  refine beq_zero_iff.2 ?_
  show ∃ t, Alike.repack (.mul .binary64 w.toModel.unpack l.toModel.unpack) = .zero t
  rw [hs]
  cases hu : l.toModel.unpack with
  | notANumber => rw [hu] at hl; cases hl
  | infinity t => rw [hu] at hl; cases hl
  | zero t => exact ⟨s * t, Alike.repack_zero _⟩
  | finite t m e hm => exact ⟨s * t, Alike.repack_zero _⟩

/-- A zero does not outweigh what is not finite. -/
theorem isNaN_mul (hw : (w == 0) = true) (hl : l.isFinite = false) : (w * l).isNaN = true := by
  obtain ⟨s, hs⟩ := beq_zero_iff.1 hw
  change l.toModel.unpack.isFinite = false at hl
  show (Alike.repack (.mul .binary64 w.toModel.unpack l.toModel.unpack)).isNaN = true
  rw [hs]
  cases hu : l.toModel.unpack with
  | notANumber => exact Alike.isNaN_repack
  | infinity t => exact Alike.isNaN_repack
  | zero t => rw [hu] at hl; cases hl
  | finite t m e hm => rw [hu] at hl; cases hl

/-! ## Sums -/

theorem isNaN_foldl_add {xs : List Float} :
    ∀ {a : Float}, (a.isNaN = true ∨ ∃ x ∈ xs, x.isNaN = true) →
      (xs.foldl (· + ·) a).isNaN = true := by
  induction xs with
  | nil =>
    rintro a (ha | ⟨x, hx, -⟩)
    · exact ha
    · cases hx
  | cons x xs ih =>
    rintro a (ha | ⟨y, hy, hnan⟩)
    · exact ih (.inl (isNaN_add_left ha x))
    · rcases List.mem_cons.1 hy with rfl | hy
      · exact ih (.inl (isNaN_add_right a hnan))
      · exact ih (.inr ⟨y, hy, hnan⟩)

/-- One undefined term makes a sum undefined. -/
theorem isNaN_sum {xs : List Float} (h : ∃ x ∈ xs, x.isNaN = true) :
    (Scalar.sum xs).isNaN = true :=
  isNaN_foldl_add (.inr h)

theorem sameValue_foldl_filter {α : Type} {f : α → Float} {p : α → Bool} {l : List α} :
    ∀ {a b : Float}, SameValue a b → (∀ i ∈ l, p i = false → (f i == 0) = true) →
      SameValue ((l.map f).foldl (· + ·) a) (((l.filter p).map f).foldl (· + ·) b) := by
  induction l with
  | nil => exact fun h _ => h
  | cons i l ih =>
    intro a b h hzeros
    have hrest := fun j hj => hzeros j (List.mem_cons_of_mem i hj)
    cases hp : p i with
    | true =>
      rw [List.filter_cons_of_pos hp]
      exact ih (h.add (f i)) hrest
    | false =>
      rw [List.filter_cons_of_neg (by rw [hp]; decide)]
      exact ih ((SameValue.add_zero a (hzeros i List.mem_cons_self hp)).trans h) hrest

/-- Terms that are zero can be left out of a sum. -/
theorem sameValue_sum_filter {α : Type} {f : α → Float} {p : α → Bool} {l : List α}
    (h : ∀ i ∈ l, p i = false → (f i == 0) = true) :
    SameValue (Scalar.sum (l.map f)) (Scalar.sum ((l.filter p).map f)) :=
  sameValue_foldl_filter (.refl _) h

end SymbolicRegression
