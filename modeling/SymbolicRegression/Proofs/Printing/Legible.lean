import SymbolicRegression.Proofs.Printing.Layout

/-!
# Reading a layout back

A layout is legible if every base in it is a word, a word in front of parentheses, or parentheses
around parts with spaces between them. The text of legible layouts can be taken apart mark by mark,
so it determines them. The one place where two layouts come close is below the bar: a single group
and several factors are both written in parentheses. They differ inside, where only a group has a
space outside of further parentheses.
-/

namespace SymbolicRegression

/-- The characters of names and numbers. None of them is a mark of the notation. -/
def isWordChar (c : Char) : Bool :=
  Lexer.continuesName c || c == '.'

theorem isWordChar_of_isDigit {c : Char} (h : c.isDigit = true) : isWordChar c = true := by
  rw [isWordChar, Lexer.continuesName, h, Bool.or_true, Bool.true_or]

theorem ne_of_isWordChar {c d : Char} (hc : isWordChar c = true) (hd : isWordChar d = false) :
    c ≠ d := by
  rintro rfl
  rw [hc] at hd
  cases hd

/-- What can be raised to a power: a word, an application, or a group of several parts. -/
inductive Base : List Char → Prop
  | word {w : List Char} (hne : w ≠ []) (hw : ∀ c ∈ w, isWordChar c = true) : Base w
  | application {w inner : List Char} (hne : w ≠ []) (hw : ∀ c ∈ w, isWordChar c = true)
      (hinner : Nested (fun _ => True) inner) : Base (w ++ '(' :: (inner ++ [')']))
  | group {parts : List (List Char)} (hmany : 1 < parts.length)
      (hparts : ∀ x ∈ parts, Nested (· ≠ ' ') x) :
      Base ('(' :: ([' '].intercalate parts ++ [')']))

/-- A text of letters, digits and points with at least one of them. -/
def IsWord (s : String) : Prop :=
  s.toList ≠ [] ∧ ∀ c ∈ s.toList, isWordChar c = true

theorem isWord_of_all {s : String} (hne : s.toList ≠ []) (h : s.toList.all isWordChar = true) :
    IsWord s :=
  ⟨hne, List.all_eq_true.mp h⟩

theorem isWord_of_isName {name : String} (h : Lexer.isName name = true) : IsWord name := by
  rw [Lexer.isName] at h
  split at h
  · cases h
  · next c cs heq =>
      obtain ⟨hc, hcs⟩ := Bool.and_eq_true_iff.mp h
      rw [IsWord, heq]
      refine ⟨List.cons_ne_nil _ _, List.forall_mem_cons.mpr ⟨?_, fun d hd => ?_⟩⟩
      · rw [isWordChar, Lexer.continuesName, hc, Bool.true_or, Bool.true_or]
      · rw [isWordChar, List.all_eq_true.mp hcs d hd, Bool.true_or]

theorem IsWord.base {s : String} (h : IsWord s) : Base s.toList :=
  .word h.1 h.2

theorem Base.ne_nil {s : List Char} (h : Base s) : s ≠ [] := by
  cases h with
  | word hne _ => exact hne
  | application hne _ _ => exact List.append_ne_nil_of_left_ne_nil hne _
  | group _ _ => exact List.cons_ne_nil _ _

theorem forall_mem_cons_ite {α : Type} {p : α → Prop} {c : Prop} [Decidable c] {x y : α}
    (hx : p x) (hy : p y) : ∀ z ∈ x :: (if c then [] else [y]), p z := by
  rw [List.forall_mem_cons]
  refine ⟨hx, fun z hz => ?_⟩
  split at hz
  · cases hz
  · rw [List.mem_singleton] at hz
    rwa [hz]

/-- The predicate holds of the characters of words. -/
def AllowsWords (P : Char → Prop) : Prop :=
  ∀ c, isWordChar c = true → P c

theorem allowsWords_ne {d : Char} (hd : isWordChar d = false) : AllowsWords (· ≠ d) :=
  fun _ hc => ne_of_isWordChar hc hd

theorem AllowsWords.nested {P : Char → Prop} (hP : AllowsWords P) {w : List Char}
    (hw : ∀ c ∈ w, isWordChar c = true) : Nested P w :=
  .of_forall fun c hc => ⟨ne_of_isWordChar (hw c hc) (by decide),
    ne_of_isWordChar (hw c hc) (by decide), hP c (hw c hc)⟩

theorem Base.nested {P : Char → Prop} (hP : AllowsWords P) {s : List Char} (h : Base s) :
    Nested P s := by
  cases h with
  | word _ hw => exact hP.nested hw
  | application _ hw hinner => exact (hP.nested hw).append hinner.enclosed
  | group _ hparts =>
      refine Nested.enclosed (P := fun _ => True) ?_
      exact .intercalate (by decide) (by decide) trivial fun x hx => (hparts x hx).any

namespace TermLayout

variable {P : Char → Prop} {f g : String × Nat} {fs gs : List (String × Nat)}

theorem isWordChar_of_mem_toDigits {n : Nat} {c : Char} (h : c ∈ Nat.toDigits 10 n) :
    isWordChar c = true :=
  isWordChar_of_isDigit (Nat.isDigit_of_mem_toDigits (by decide) (by decide) h)

/-! ## Powers -/

theorem nested_powerParts (hP : AllowsWords P) (hf : Base f.1.toList) :
    ∀ x ∈ powerParts f, Nested P x := by
  rw [powerParts]
  refine forall_mem_cons_ite (hf.nested hP) ?_
  exact hP.nested fun c hc => isWordChar_of_mem_toDigits hc

theorem nested_powerText (hP : AllowsWords P) (hcaret : P '^') (hf : Base f.1.toList) :
    Nested P (powerText f) :=
  .intercalate (by decide) (by decide) hcaret (nested_powerParts hP hf)

theorem powerText_inj (hf : Base f.1.toList) (hg : Base g.1.toList)
    (h : powerText f = powerText g) : f = g := by
  have hwords : AllowsWords (· ≠ '^') := allowsWords_ne (by decide)
  obtain ⟨hbase, hexponent⟩ := List.cons.inj (Nested.intercalate_inj (by decide)
    (nested_powerParts hwords hf) (nested_powerParts hwords hg) (List.cons_ne_nil _ _)
    (List.cons_ne_nil _ _) h)
  refine Prod.ext (String.toList_inj.mp hbase) ?_
  split at hexponent
  · next hone =>
      split at hexponent
      · next hone' => rw [hone, hone']
      · cases hexponent
  · split at hexponent
    · cases hexponent
    · rw [← Nat.ofDigitChars_ten_toDigits (n := f.2), (List.cons.inj hexponent).1,
        Nat.ofDigitChars_ten_toDigits]

/-! ## Products -/

theorem nested_productText (hP : AllowsWords P) (hcaret : P '^') (hstar : P '*')
    (hfs : ∀ f ∈ fs, Base f.1.toList) : Nested P (productText fs) := by
  refine .intercalate (by decide) (by decide) hstar fun x hx => ?_
  obtain ⟨f, hf, rfl⟩ := List.mem_map.mp hx
  exact nested_powerText hP hcaret (hfs f hf)

theorem eq_of_map_powerText_eq (hfs : ∀ f ∈ fs, Base f.1.toList) (hgs : ∀ g ∈ gs, Base g.1.toList)
    (h : fs.map powerText = gs.map powerText) : fs = gs := by
  have heq := map_eq_of_map_eq (g := id)
    (fun f hf g hg => powerText_inj (hfs f hf) (hgs g hg)) h
  rwa [List.map_id, List.map_id] at heq

theorem productText_inj (hfs : ∀ f ∈ fs, Base f.1.toList) (hgs : ∀ g ∈ gs, Base g.1.toList)
    (hf : fs ≠ []) (hg : gs ≠ []) (h : productText fs = productText gs) : fs = gs := by
  have hparts : ∀ fs : List (String × Nat), (∀ f ∈ fs, Base f.1.toList) →
      ∀ x ∈ fs.map powerText, Nested (· ≠ '*') x := by
    intro fs hfs x hx
    obtain ⟨f, hf, rfl⟩ := List.mem_map.mp hx
    exact nested_powerText (allowsWords_ne (by decide)) (by decide) (hfs f hf)
  apply eq_of_map_powerText_eq hfs hgs
  exact Nested.intercalate_inj (by decide) (hparts fs hfs) (hparts gs hgs) (by simpa using hf)
    (by simpa using hg) h

/-! ## What stands below the bar -/

theorem nested_belowText (hP : AllowsWords P) (hcaret : P '^') (hstar : P '*')
    (hfs : ∀ f ∈ fs, Base f.1.toList) : Nested P (belowText fs) := by
  have h := nested_productText hP hcaret hstar hfs
  rw [belowText]
  split
  · exact h.enclosed
  · exact h

/-- A power is never written like several factors in parentheses. -/
theorem powerText_ne_enclosed (hf : Base f.1.toList) (hgs : ∀ g ∈ gs, Base g.1.toList) :
    powerText f ≠ '(' :: (productText gs ++ [')']) := by
  intro h
  have hspace := nested_productText (P := (· ≠ ' ')) (allowsWords_ne (by decide)) (by decide)
    (by decide) hgs
  obtain ⟨exponent, hpower⟩ : ∃ exponent, powerText f = f.1.toList ++ exponent := by
    rw [powerText, powerParts]
    split
    · exact ⟨[], by rw [List.intercalate_singleton, List.append_nil]⟩
    · exact ⟨_, by rw [List.intercalate_cons_cons, List.append_assoc]⟩
  rw [hpower] at h
  generalize f.1.toList = s at hf h
  cases hf with
  | word hne hw =>
      obtain ⟨c, cs, rfl⟩ := List.exists_cons_of_ne_nil hne
      obtain ⟨rfl, -⟩ := List.cons.inj h
      exact absurd (hw '(' List.mem_cons_self) (by decide)
  | application hne hw _ =>
      obtain ⟨c, cs, rfl⟩ := List.exists_cons_of_ne_nil hne
      obtain ⟨rfl, -⟩ := List.cons.inj h
      exact absurd (hw '(' List.mem_cons_self) (by decide)
  | @group parts hmany hparts =>
      rw [List.cons_append, List.append_assoc, List.singleton_append] at h
      have hbody : Nested (fun _ => True) ([' '].intercalate parts) :=
        .intercalate (by decide) (by decide) trivial fun x hx => (hparts x hx).any
      obtain ⟨heq, -⟩ := hbody.enclosed_inj hspace (List.cons.inj h).2
      -- the group has several parts with spaces between them, the product is one part
      have hone : parts = [productText gs] := by
        refine Nested.intercalate_inj (by decide) hparts (List.forall_mem_singleton.mpr hspace) ?_
          (List.cons_ne_nil _ _) (heq.trans List.intercalate_singleton.symm)
        rintro rfl
        exact absurd hmany (by decide)
      rw [hone] at hmany
      exact absurd hmany (Nat.lt_irrefl 1)

theorem belowText_inj (hfs : ∀ f ∈ fs, Base f.1.toList) (hgs : ∀ g ∈ gs, Base g.1.toList)
    (hf : fs ≠ []) (hg : gs ≠ []) (h : belowText fs = belowText gs) : fs = gs := by
  have hsingle : ∀ fs gs : List (String × Nat), (∀ f ∈ fs, Base f.1.toList) →
      (∀ g ∈ gs, Base g.1.toList) → fs ≠ [] → ¬1 < fs.length →
      productText fs ≠ '(' :: (productText gs ++ [')']) := by
    intro fs gs hfs hgs hne hlength
    obtain ⟨f, rest, rfl⟩ := List.exists_cons_of_ne_nil hne
    obtain rfl : rest = [] := by
      rw [List.length_cons] at hlength
      exact List.eq_nil_of_length_eq_zero (by omega)
    rw [productText, List.map_singleton, List.intercalate_singleton]
    exact powerText_ne_enclosed (hfs f List.mem_cons_self) hgs
  rw [belowText, belowText] at h
  split at h
  · split at h
    · have hinner := (nested_productText (P := fun _ => True) (fun _ _ => trivial) trivial trivial
        hfs).enclosed_inj (nested_productText (P := fun _ => True) (fun _ _ => trivial) trivial
          trivial hgs) (List.cons.inj h).2
      exact productText_inj hfs hgs hf hg hinner.1
    · next hlength => exact absurd h.symm (hsingle gs fs hgs hfs hg hlength)
  · next hlength =>
      split at h
      · exact absurd h (hsingle fs gs hfs hgs hf hlength)
      · exact productText_inj hfs hgs hf hg h

/-! ## Terms -/

/-- Something stands above the bar, and all that stands above or below are bases. -/
structure Legible (t : TermLayout) : Prop where
  above_ne_nil : t.above ≠ []
  above : ∀ f ∈ t.above, Base f.1.toList
  below : ∀ f ∈ t.below, Base f.1.toList

theorem Legible.nested_fractionParts (hP : AllowsWords P) (hcaret : P '^') (hstar : P '*')
    {t : TermLayout} (h : t.Legible) : ∀ x ∈ t.fractionParts, Nested P x := by
  rw [fractionParts]
  exact forall_mem_cons_ite (nested_productText hP hcaret hstar h.above)
    (nested_belowText hP hcaret hstar h.below)

theorem Legible.nested_text (hP : AllowsWords P) (hcaret : P '^') (hstar : P '*') (hslash : P '/')
    {t : TermLayout} (h : t.Legible) : Nested P t.text :=
  .intercalate (by decide) (by decide) hslash (h.nested_fractionParts hP hcaret hstar)

theorem Legible.text_ne_nil {t : TermLayout} (h : t.Legible) : t.text ≠ [] := by
  refine Nested.intercalate_cons_ne_nil ?_
  obtain ⟨f, fs, hf⟩ := List.exists_cons_of_ne_nil h.above_ne_nil
  have hbase : Base f.1.toList := h.above f (hf ▸ List.mem_cons_self)
  rw [hf, productText, List.map_cons]
  exact Nested.intercalate_cons_ne_nil (Nested.intercalate_cons_ne_nil hbase.ne_nil)

theorem Legible.eq_of_text {t u : TermLayout} (ht : t.Legible) (hu : u.Legible)
    (hnegative : t.negative = u.negative) (h : t.text = u.text) : t = u := by
  have hparts : ∀ t : TermLayout, t.Legible → ∀ x ∈ t.fractionParts, Nested (· ≠ '/') x :=
    fun t ht => ht.nested_fractionParts (allowsWords_ne (by decide)) (by decide) (by decide)
  obtain ⟨habove, hbelow⟩ := List.cons.inj (Nested.intercalate_inj (by decide) (hparts t ht)
    (hparts u hu) (List.cons_ne_nil _ _) (List.cons_ne_nil _ _) h)
  have habove' := productText_inj ht.above hu.above ht.above_ne_nil hu.above_ne_nil habove
  have hbelow' : t.below = u.below := by
    split at hbelow
    · next hempty =>
        split at hbelow
        · next hempty' => rw [List.isEmpty_iff.mp hempty, List.isEmpty_iff.mp hempty']
        · cases hbelow
    · next hne =>
        split at hbelow
        · cases hbelow
        · next hne' =>
            rw [List.isEmpty_iff] at hne hne'
            exact belowText_inj ht.below hu.below hne hne' (List.cons.inj hbelow).1
  cases t
  cases u
  simp_all

/-! ## Sums -/

theorem Legible.text_ne_minus {t : TermLayout} (h : t.Legible) (rest : List Char) :
    t.text ≠ '-' :: rest := by
  have hnested : Nested (· ≠ '-') t.text :=
    h.nested_text (allowsWords_ne (by decide)) (by decide) (by decide) (by decide)
  intro heq
  rw [heq] at hnested
  cases hnested with
  | char _ _ hc _ => exact hc rfl

theorem nested_parts {ts : List TermLayout} (h : ∀ t ∈ ts, t.Legible) :
    ∀ x ∈ parts ts, Nested (fun c => c ≠ ' ' ∧ c ≠ ',') x := by
  have hwords : AllowsWords fun c => c ≠ ' ' ∧ c ≠ ',' := fun c hc =>
    ⟨ne_of_isWordChar hc (by decide), ne_of_isWordChar hc (by decide)⟩
  have htext : ∀ t : TermLayout, t.Legible → Nested (fun c => c ≠ ' ' ∧ c ≠ ',') t.text :=
    fun t ht => ht.nested_text hwords (by decide) (by decide) (by decide)
  cases ts with
  | nil => exact List.forall_mem_nil _
  | cons t ts =>
      obtain ⟨ht, hts⟩ := List.forall_mem_cons.mp h
      rw [parts, List.forall_mem_cons]
      refine ⟨?_, fun x hx => ?_⟩
      · split
        · exact .char (by decide) (by decide) (by decide) (htext t ht)
        · exact htext t ht
      · obtain ⟨u, hu, hx⟩ := List.mem_flatMap.mp hx
        rw [List.mem_cons, List.mem_singleton] at hx
        rcases hx with rfl | rfl
        · split
          · exact .char (by decide) (by decide) (by decide) .nil
          · exact .char (by decide) (by decide) (by decide) .nil
        · exact htext u (hts u hu)

theorem eq_of_signedTexts_eq :
    ∀ {ts us : List TermLayout}, (∀ t ∈ ts, t.Legible) → (∀ u ∈ us, u.Legible) →
      signedTexts ts = signedTexts us → ts = us
  | [], [], _, _, _ => rfl
  | [], _ :: _, _, _, h => by cases h
  | _ :: _, [], _, _, h => by cases h
  | t :: ts, u :: us, hts, hus, h => by
      obtain ⟨ht, hts⟩ := List.forall_mem_cons.mp hts
      obtain ⟨hu, hus⟩ := List.forall_mem_cons.mp hus
      simp only [signedTexts, List.flatMap_cons, List.cons_append, List.nil_append,
        List.cons.injEq, and_true] at h
      obtain ⟨hmark, htext, hrest⟩ := h
      have hnegative : t.negative = u.negative := by
        revert hmark
        cases t.negative <;> cases u.negative <;> decide
      rw [ht.eq_of_text hu hnegative htext, eq_of_signedTexts_eq hts hus hrest]

/-- The first term shows its sign only if it is negative; no text starts with a minus of its own. -/
theorem Legible.eq_of_signed {t u : TermLayout} (ht : t.Legible) (hu : u.Legible)
    (h : (if t.negative then ['-'] else []) ++ t.text =
      (if u.negative then ['-'] else []) ++ u.text) : t = u := by
  cases hneg : t.negative with
  | true =>
      cases hneg' : u.negative with
      | true =>
          rw [hneg, hneg'] at h
          exact ht.eq_of_text hu (hneg.trans hneg'.symm) (List.append_cancel_left h)
      | false =>
          rw [hneg, hneg'] at h
          exact absurd h.symm (hu.text_ne_minus _)
  | false =>
      cases hneg' : u.negative with
      | true =>
          rw [hneg, hneg'] at h
          exact absurd h (ht.text_ne_minus _)
      | false =>
          rw [hneg, hneg'] at h
          exact ht.eq_of_text hu (hneg.trans hneg'.symm) (List.append_cancel_left h)

/-- The parts of a sum show its terms. -/
theorem parts_inj {ts us : List TermLayout} (hts : ∀ t ∈ ts, t.Legible)
    (hus : ∀ u ∈ us, u.Legible) (h : parts ts = parts us) : ts = us := by
  cases ts with
  | nil =>
      cases us with
      | nil => rfl
      | cons u us => cases h
  | cons t ts =>
      cases us with
      | nil => cases h
      | cons u us =>
          obtain ⟨ht, hts⟩ := List.forall_mem_cons.mp hts
          obtain ⟨hu, hus⟩ := List.forall_mem_cons.mp hus
          obtain ⟨hfirst, hrest⟩ := List.cons.inj h
          rw [ht.eq_of_signed hu hfirst, eq_of_signedTexts_eq hts hus hrest]

end TermLayout

end SymbolicRegression
