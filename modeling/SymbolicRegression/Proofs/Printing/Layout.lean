import Mathlib.Data.List.Forall2
import SymbolicRegression.Polynomial.Text
import SymbolicRegression.Proofs.Lexing
import SymbolicRegression.Proofs.Printing.Nesting

/-!
# What a printed sum shows

A printed sum shows a list of signed fractions of powers, and no more than that: a coefficient is
seen only through its label, where it is not left out, and an atom only through its key. The layout
of a sum is that list. The printed text is put together from the layout alone, and the layout can be
read back from the text, as long as labels are words and every key is a word, a word in front of
parentheses, or parentheses around a sum of at least two terms.
-/

namespace SymbolicRegression

/-- A signed fraction of powers. A label counts as a base, and so does the one that stands above a
bar when nothing else does. -/
structure TermLayout where
  negative : Bool
  above : List (String × Nat)
  below : List (String × Nat)
  deriving Repr, DecidableEq

namespace Polynomial

variable {K : Type} [Coefficient K]

/-- The powers of the factors that are kept, such as those above the bar. -/
def powers (keep : Int → Bool) (m : Monomial K) : List (String × Nat) :=
  (m.filter fun f => keep f.2).map fun f => (f.1.key, f.2.natAbs)

/-- The label of the coefficient. -/
def labelOf (t : Monomial K × K) : String :=
  Coefficient.label (Scalar.abs t.2)

def termLayout (t : Monomial K × K) : TermLayout :=
  let upper := powers (fun e => 0 < e) t.1
  let lower := powers (fun e => e ≤ 0) t.1
  let upper :=
    if !Scalar.eq (Scalar.abs t.2) Scalar.one || (upper.isEmpty && lower.isEmpty) then
      (labelOf t, 1) :: upper
    else upper
  { negative := Scalar.lt t.2 Scalar.zero
    above := if upper.isEmpty then [("1", 1)] else upper
    below := lower }

/-- The terms in the order in which they are printed. -/
def printedOrder (p : Polynomial K) : Polynomial K :=
  (p.filter fun t => !t.1.isEmpty) ++ p.filter fun t => t.1.isEmpty

/-- The terms as they are printed; an empty sum is printed as one zero. -/
def layout (p : Polynomial K) : List TermLayout :=
  match printedOrder p with
  | [] => [⟨false, [("0", 1)], []⟩]
  | terms => terms.map termLayout

end Polynomial

namespace TermLayout

/-- A base and, where it is not one, the exponent. -/
def powerParts (f : String × Nat) : List (List Char) :=
  f.1.toList :: if f.2 = 1 then [] else [Nat.toDigits 10 f.2]

def powerText (f : String × Nat) : List Char :=
  ['^'].intercalate (powerParts f)

theorem powerText_one (base : String) : powerText (base, 1) = base.toList :=
  List.intercalate_singleton

def productText (fs : List (String × Nat)) : List Char :=
  ['*'].intercalate (fs.map powerText)

/-- Several factors below the bar are put in parentheses. -/
def belowText (fs : List (String × Nat)) : List Char :=
  if 1 < fs.length then '(' :: (productText fs ++ [')']) else productText fs

/-- A numerator and, where there is one, the denominator. -/
def fractionParts (t : TermLayout) : List (List Char) :=
  productText t.above :: if t.below.isEmpty then [] else [belowText t.below]

def text (t : TermLayout) : List Char :=
  ['/'].intercalate t.fractionParts

/-- The parts of a sum behind its first term: each term with its sign in front. -/
def signedTexts (ts : List TermLayout) : List (List Char) :=
  ts.flatMap fun t => [[if t.negative then '-' else '+'], t.text]

/-- The parts of a sum that stand between spaces. -/
def parts : List TermLayout → List (List Char)
  | [] => []
  | t :: ts => ((if t.negative then ['-'] else []) ++ t.text) :: signedTexts ts

end TermLayout

/-! ## The text shows the layout -/

namespace Polynomial

variable {K : Type} [Coefficient K]

open TermLayout

omit [Coefficient K] in
theorem toList_power (a : Atom K) {e : Int} (he : 0 ≤ e) :
    (if e = 1 then a.key else PrintStyle.text.raise a.key (Number.ofInt e)).toList =
      powerText (a.key, e.natAbs) := by
  rw [powerText, powerParts]
  by_cases h : e = 1
  · subst h
    rw [if_pos rfl]
    exact (powerText_one a.key).symm
  · rw [if_neg h, if_neg (by omega), PrintStyle.text, Number.ofInt, if_neg (by omega),
      List.intercalate_cons_cons, List.intercalate_singleton]
    simp only [String.toList_append, String.toList_ofList]
    rfl

omit [Coefficient K] in
/-- The factors on one side of the bar. -/
theorem toList_powers {m : Monomial K} (keep : Int → Bool) (turn : Int → Int)
    (hturn : ∀ e, keep e = true → 0 ≤ turn e ∧ (turn e).natAbs = e.natAbs) :
    ((((m.map fun f => (f.1.key, f.2)).filter fun f => keep f.2).map fun f =>
        if turn f.2 = 1 then f.1 else PrintStyle.text.raise f.1 (Number.ofInt (turn f.2)))).map
          String.toList =
      (powers keep m).map powerText := by
  rw [powers, List.filter_map, List.map_map, List.map_map, List.map_map]
  refine List.map_congr_left fun f hf => ?_
  obtain ⟨hsign, habs⟩ := hturn f.2 (List.mem_filter.mp hf).2
  simp only [Function.comp_apply]
  rw [toList_power f.1 hsign, habs]

theorem toList_product {texts : List String} {fs : List (String × Nat)}
    (h : texts.map String.toList = fs.map powerText) :
    (PrintStyle.text.times.intercalate texts).toList = productText fs := by
  rw [String.toList_intercalate, h]
  rfl

theorem isEmpty_eq_of_map_eq {texts : List String} {fs : List (String × Nat)}
    (h : texts.map String.toList = fs.map powerText) : texts.isEmpty = fs.isEmpty := by
  have hlength := congrArg List.length h
  rw [List.length_map, List.length_map] at hlength
  rw [Bool.eq_iff_iff, List.isEmpty_iff_length_eq_zero, List.isEmpty_iff_length_eq_zero, hlength]

theorem toList_quotient (numerator denominator : String) (factors : Nat) :
    (PrintStyle.text.quotient numerator denominator factors).toList =
      numerator.toList ++ '/' ::
        (if 1 < factors then '(' :: (denominator.toList ++ [')']) else denominator.toList) := by
  by_cases h : 1 < factors
  · simp [PrintStyle.text, h]
  · simp [PrintStyle.text, h]

/-- A fraction is put together from the texts of its powers. -/
theorem toList_fraction {upper lower : List String} {above below : List (String × Nat)}
    (negative : Bool) (habove : upper.map String.toList = above.map powerText)
    (hbelow : lower.map String.toList = below.map powerText) :
    (if lower.isEmpty then (if upper.isEmpty then "1" else PrintStyle.text.times.intercalate upper)
      else PrintStyle.text.quotient
        (if upper.isEmpty then "1" else PrintStyle.text.times.intercalate upper)
        (PrintStyle.text.times.intercalate lower) lower.length).toList =
      TermLayout.text ⟨negative, if above.isEmpty then [("1", 1)] else above, below⟩ := by
  have hnumerator :
      (if upper.isEmpty then "1" else PrintStyle.text.times.intercalate upper).toList =
        productText (if above.isEmpty then [("1", 1)] else above) := by
    rw [isEmpty_eq_of_map_eq habove]
    by_cases h : above.isEmpty = true
    · rw [if_pos h, if_pos h]
      rfl
    · rw [if_neg h, if_neg h, toList_product habove]
  have hlength : lower.length = below.length := by
    have h := congrArg List.length hbelow
    rwa [List.length_map, List.length_map] at h
  rw [TermLayout.text, fractionParts, isEmpty_eq_of_map_eq hbelow]
  by_cases h : below.isEmpty = true
  · rw [if_pos h, if_pos h, List.intercalate_singleton, hnumerator]
  · rw [if_neg h, if_neg h, List.intercalate_cons_cons, List.intercalate_singleton, toList_quotient,
      hnumerator, toList_product hbelow, hlength, List.append_assoc, List.singleton_append, belowText]

theorem toList_printTerm (t : Monomial K × K) :
    (printTerm .text (t.1.map fun f => (f.1.key, f.2)) t.2).text.toList = (termLayout t).text := by
  have hupper := toList_powers (m := t.1) (fun e => decide (0 < e)) (fun e => e)
    fun e he => ⟨by simp at he; omega, rfl⟩
  have hlower := toList_powers (m := t.1) (fun e => decide (e ≤ 0)) (fun e => -e)
    fun e he => ⟨by simp at he; omega, Int.natAbs_neg e⟩
  rw [termLayout, printTerm, ← isEmpty_eq_of_map_eq hupper, ← isEmpty_eq_of_map_eq hlower]
  refine toList_fraction _ ?_ hlower
  split
  · rw [List.map_cons, List.map_cons, hupper, powerText_one, labelOf]
  · exact hupper

/-! ### Sums -/

theorem intercalate_cons (d : Char) (x : List Char) (xs : List (List Char)) :
    [d].intercalate (x :: xs) = x ++ xs.flatMap fun y => d :: y := by
  induction xs generalizing x with
  | nil => rw [List.intercalate_singleton, List.flatMap_nil, List.append_nil]
  | cons y ys ih =>
      rw [List.intercalate_cons_cons, ih, List.flatMap_cons, List.append_assoc]
      rfl

/-- The texts of the terms, joined by signs. -/
theorem toList_joinTerms {first : PrintedTerm} {others : List PrintedTerm} {t : TermLayout}
    {ts : List TermLayout} (hfirst : first.negative = t.negative ∧ first.text.toList = t.text)
    (hothers : List.Forall₂
      (fun s t => s.negative = t.negative ∧ s.text.toList = t.text) others ts) :
    (others.foldl (fun out s => out ++ (if s.negative then " - " else " + ") ++ s.text)
      ((if first.negative then "-" else "") ++ first.text)).toList =
      [' '].intercalate (parts (t :: ts)) := by
  have hfold : ∀ start : String,
      (others.foldl (fun out s => out ++ (if s.negative then " - " else " + ") ++ s.text)
        start).toList = start.toList ++ (signedTexts ts).flatMap fun y => ' ' :: y := by
    induction hothers with
    | nil => intro start; simp [signedTexts]
    | @cons s t others ts hs _ ih =>
        intro start
        rw [List.foldl_cons, ih]
        cases hneg : t.negative with
        | true => simp [signedTexts, hs.1, hs.2, hneg]
        | false => simp [signedTexts, hs.1, hs.2, hneg]
  rw [hfold, parts, intercalate_cons, String.toList_append, hfirst.1, hfirst.2]
  cases t.negative with
  | true => rfl
  | false => rfl

omit [Coefficient K] in
theorem printedOrder_map (p : Polynomial K) (f : Monomial K × K → PrintedTerm)
    (hf : ∀ t, (f t).isConstant = t.1.isEmpty) :
    ((p.map f).filter fun s => !s.isConstant) ++ (p.map f).filter (fun s => s.isConstant) =
      (printedOrder p).map f := by
  rw [List.filter_map, List.filter_map, printedOrder, List.map_append]
  simp only [Function.comp_def, hf]

/-- The text of a sum is put together from its layout. -/
theorem toList_text (p : Polynomial K) :
    (text p).toList = [' '].intercalate (parts (layout p)) := by
  have horder := printedOrder_map p
    (fun t => printTerm .text (t.1.map fun f => (f.1.key, f.2)) t.2) fun t => by
      simp [printTerm]
  have htext : text p = joinTerms (p.map fun t =>
      printTerm .text (t.1.map fun f => (f.1.key, f.2)) t.2) := rfl
  rw [htext, joinTerms, horder, layout]
  cases printedOrder p with
  | nil =>
      show "0".toList = [' '].intercalate (parts [⟨false, [("0", 1)], []⟩])
      simp [parts, signedTexts, TermLayout.text, fractionParts, productText, powerText_one]
  | cons t ts =>
      refine toList_joinTerms ⟨rfl, toList_printTerm t⟩ ?_
      rw [List.forall₂_map_left_iff, List.forall₂_map_right_iff]
      exact List.forall₂_same.mpr fun s _ => ⟨rfl, toList_printTerm s⟩

end Polynomial

end SymbolicRegression
