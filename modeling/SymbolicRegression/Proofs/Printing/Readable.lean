import SymbolicRegression.Proofs.Expansion.Reading
import SymbolicRegression.Proofs.Printing.Numerals

/-!
# Layouts are read as what they show

A layout is printed level by level, and each level is read by the layer of the grammar that it was
written for: bases as atoms, bases with exponents as powers, numerator and denominator as one product,
terms with their signs as a sum. A text is followed here together with the derivation that it is
split into and with the value of what is derived. What makes the levels fit is how they are put
together: every mark ends the word in front of it, and a part that stands behind a mark only adds to
what has been read before. A sign in front of the first term binds its first factor alone, which
comes to the same as a sign in front of the whole fraction.
-/

namespace SymbolicRegression

open Lexer (Ends Lexes ends_nil ends_cons)
open Grammar

variable {F : Type} [Field F]

/-- Names have the values of symbols, and calls those of functions. -/
def Reading.meaning (R : Reading Float F) (symbols : String → F) : Interpretation F where
  number? name := some (symbols name)
  function? name := some (R.function name)
  neg a := -a
  binary := R.binary

/-- The character that a sign is written as. -/
def Grammar.Sign.mark : Sign → Char
  | plus => '+'
  | minus => '-'

/-- The text is split into these kinds of tokens in front of anything that ends a word. -/
def Lexer.Writes (cs : List Char) (kinds : List TokenKind) : Prop :=
  ∀ rest ks, Ends rest → Lexes rest ks → Lexes (cs ++ rest) (kinds ++ ks)

/-- The value of the expression, numbers read exactly. -/
def Means (R : Reading Float F) (symbols : String → F) (e : Expr Float) (x : F) : Prop :=
  (e.mapNumbers R.toField).value? (R.meaning symbols) = some x

/-- The text is split into these tokens, which stand for an expression of that value. It does not
start like the second half of a token. -/
structure Reads (R : Reading Float F) (symbols : String → F) (cs : List Char)
    (kinds : List TokenKind) (e : Expr Float) (x : F) : Prop where
  start : ∃ c rest, cs = c :: rest ∧ c ≠ '*'
  writes : Lexer.Writes cs kinds
  means : Means R symbols e x

def AtomReads (R : Reading Float F) (symbols : String → F) (cs : List Char) (x : F) : Prop :=
  ∃ a : AtomTree, Reads R symbols cs a.kinds a.expr x

def PowerReads (R : Reading Float F) (symbols : String → F) (cs : List Char) (x : F) : Prop :=
  ∃ p : PowerTree, Reads R symbols cs p.kinds p.expr x

def ProductReads (R : Reading Float F) (symbols : String → F) (cs : List Char) (x : F) : Prop :=
  ∃ p : ProductTree, Reads R symbols cs p.kinds p.expr x

def SumReads (R : Reading Float F) (symbols : String → F) (cs : List Char) (x : F) : Prop :=
  ∃ s : SumTree, Reads R symbols cs s.kinds s.expr x

variable {R : Reading Float F} {symbols : String → F} {cs cs' : List Char} {x y : F}

namespace Means

variable {e e' : Expr Float}

theorem number (v : Float) : Means R symbols (.number v) (R.toField v) :=
  rfl

theorem name (n : String) : Means R symbols (.name n) (symbols n) :=
  rfl

theorem neg (h : Means R symbols e x) : Means R symbols (.neg e) (-x) := by
  rw [Means] at h ⊢
  rw [Expr.mapNumbers, Expr.value?, h]
  rfl

theorem binary (op : BinaryOp) (h : Means R symbols e x) (h' : Means R symbols e' y) :
    Means R symbols (.binary op e e') (R.binary op x y) := by
  rw [Means] at h h' ⊢
  rw [Expr.mapNumbers, Expr.value?, h, h']
  rfl

theorem call {es : List (Expr Float)} {xs : List F} (name : String)
    (h : Expr.valuesAll? (R.meaning symbols) (Expr.mapNumbersAll R.toField es) = some xs) :
    Means R symbols (.call name es) (R.function name xs) := by
  rw [Means, Expr.mapNumbers, Expr.value?, h]
  rfl

end Means

/-! ## Marks -/

namespace Lexer

variable {kinds ks : List TokenKind} {rest : List Char}

theorem Writes.append_mark (h : Writes cs kinds) (hends : Ends cs') (hrest : Lexes cs' ks) :
    Lexes (cs ++ cs') (kinds ++ ks) :=
  h cs' ks hends hrest

theorem Lexes.star (hstart : ∃ c rest, cs = c :: rest ∧ c ≠ '*') (h : Lexes cs kinds) :
    Lexes ('*' :: cs) (.star :: kinds) := by
  obtain ⟨c, rest, rfl, hc⟩ := hstart
  exact .token (by decide) (longest?_star hc rest) h

theorem Lexes.slash (h : Lexes cs kinds) : Lexes ('/' :: cs) (.slash :: kinds) :=
  .token (by decide) rfl h

theorem Lexes.caret (h : Lexes cs kinds) : Lexes ('^' :: cs) (.caret :: kinds) :=
  .token (by decide) rfl h

theorem Lexes.sign (sign : Sign) (h : Lexes cs kinds) :
    Lexes (sign.mark :: cs) (sign.kind :: kinds) := by
  cases sign with
  | plus => exact .token (by decide) rfl h
  | minus => exact .token (by decide) rfl h

end Lexer

/-! ## Atoms and powers -/

theorem start_append (h : ∃ c rest, cs = c :: rest ∧ c ≠ '*') :
    ∃ c rest, cs ++ cs' = c :: rest ∧ c ≠ '*' := by
  obtain ⟨c, rest, rfl, hc⟩ := h
  exact ⟨c, rest ++ cs', rfl, hc⟩

theorem start_of_isName {name : String} (h : Lexer.isName name = true) :
    ∃ c rest, name.toList = c :: rest ∧ c ≠ '*' := by
  obtain ⟨hne, hword⟩ := isWord_of_isName h
  obtain ⟨c, rest, heq⟩ := List.exists_cons_of_ne_nil hne
  exact ⟨c, rest, heq, ne_of_isWordChar (hword c (heq ▸ List.mem_cons_self)) (by decide)⟩

theorem atomReads_numeral {v : Float} (hcs : IsNumeral cs) (hv : Numeral.unsigned? cs = some v) :
    AtomReads R symbols cs (R.toField v) := by
  refine ⟨.number v, ?_, fun rest ks hrest h => h.numeral hcs hv hrest, .number v⟩
  obtain ⟨c, rest, heq, hc⟩ := hcs.exists_cons
  refine ⟨c, rest, heq, ?_⟩
  rintro rfl
  exact absurd hc (by decide)

theorem atomReads_name {name : String} (hname : Lexer.isName name = true) :
    AtomReads R symbols name.toList (symbols name) := by
  refine ⟨.name name, start_of_isName hname, fun rest ks hrest h => ?_, .name name⟩
  exact h.name hname hrest.separated

theorem SumReads.parens (h : SumReads R symbols cs x) :
    AtomReads R symbols ('(' :: (cs ++ [')'])) x := by
  obtain ⟨s, hs⟩ := h
  refine ⟨.parens s, ⟨'(', _, rfl, by decide⟩, fun rest ks _ h => ?_, hs.means⟩
  have hclose := hs.writes.append_mark (ends_cons (by decide)) h.rightParen
  simpa [AtomTree.kinds] using hclose.leftParen

/-- A base with its exponent, which is left out where it is one. -/
theorem AtomReads.power {f : String × ℕ} (h : AtomReads R symbols f.1.toList x) {v : Float}
    (hv : Numeral.unsigned? (Nat.toDigits 10 f.2) = some v)
    (hpower : R.power x (R.toField v) = x ^ f.2) :
    PowerReads R symbols (TermLayout.powerText f) (x ^ f.2) := by
  obtain ⟨a, ha⟩ := h
  obtain ⟨base, n⟩ := f
  rw [TermLayout.powerText, TermLayout.powerParts]
  by_cases hn : n = 1
  · subst hn
    rw [if_pos rfl, List.intercalate_singleton, pow_one]
    exact ⟨.bare a, ha⟩
  · rw [if_neg hn, List.intercalate_cons_cons, List.intercalate_singleton, List.append_assoc,
      List.singleton_append]
    refine ⟨.raised a .caret (.power (.bare (.number v))), start_append ha.start,
      fun rest ks hrest hks => ?_, ?_⟩
    · have hcaret := (hks.numeral (isNumeral_toDigits n) hv hrest).caret
      have hbase := ha.writes.append_mark (ends_cons (by decide)) hcaret
      simpa [PowerTree.kinds, SignedTree.kinds, AtomTree.kinds, Raising.kind] using hbase
    · have hmeans := ha.means.binary .pow (.number v)
      rwa [show R.binary .pow x (R.toField v) = x ^ n from hpower] at hmeans

/-! ## Products -/

/-- What stands behind the first factor of a product, with what it does to the value of that. -/
structure TailReads (R : Reading Float F) (symbols : String → F) (cs : List Char) (op : F → F) :
    Prop where
  ends : Ends cs
  tail : ∃ tail : ProductTail, Lexer.Writes cs tail.kinds ∧
    ∀ left y, Means R symbols left y → Means R symbols (tail.exprFrom left) (op y)

variable {op : F → F}

theorem tailReads_nil : TailReads R symbols [] id :=
  ⟨ends_nil, .done, fun _ _ _ h => h, fun _ _ h => h⟩

theorem TailReads.star (h : TailReads R symbols cs' op) (hp : PowerReads R symbols cs x) :
    TailReads R symbols ('*' :: cs ++ cs') fun y => op (y * x) := by
  obtain ⟨p, hp⟩ := hp
  obtain ⟨tail, hwrites, hmeans⟩ := h.tail
  refine ⟨ends_cons (by decide), .more .star (.power p) tail, fun rest ks hrest hks => ?_,
    fun left y hleft => ?_⟩
  · have hrest' := hp.writes.append_mark (h.ends.append hrest) (hwrites rest ks hrest hks)
    have hstar := Lexer.Lexes.star (start_append hp.start) hrest'
    simpa [ProductTail.kinds, SignedTree.kinds, Scaling.kind] using hstar
  · exact hmeans _ _ (hleft.binary .mul hp.means)

/-- The denominator of a fraction ends it. -/
theorem tailReads_slash (hp : PowerReads R symbols cs x) :
    TailReads R symbols ('/' :: cs) fun y => y / x := by
  obtain ⟨p, hp⟩ := hp
  refine ⟨ends_cons (by decide), .more .slash (.power p) .done, fun rest ks hrest hks => ?_,
    fun left y hleft => hleft.binary .div hp.means⟩
  have hslash := (hp.writes.append_mark hrest hks).slash
  simpa [ProductTail.kinds, SignedTree.kinds, Scaling.kind] using hslash

/-- The texts of the powers are read as the values. -/
abbrev PowersRead (R : Reading Float F) (symbols : String → F) (fs : List (String × ℕ))
    (xs : List F) : Prop :=
  List.Forall₂ (fun f x => PowerReads R symbols (TermLayout.powerText f) x) fs xs

variable {f : String × ℕ} {fs gs : List (String × ℕ)} {xs ys : List F}

theorem TailReads.stars (ht : TailReads R symbols cs' op) (h : PowersRead R symbols fs xs) :
    TailReads R symbols ((fs.map TermLayout.powerText).flatMap (fun y => '*' :: y) ++ cs')
      fun y => op (y * xs.prod) := by
  induction h with
  | nil => simpa using ht
  | @cons f x fs xs hf _ ih =>
      have hstar := ih.star hf
      rw [List.map_cons, List.flatMap_cons, List.append_assoc]
      simpa only [List.prod_cons, mul_assoc] using hstar

theorem PowerReads.product (hf : PowerReads R symbols cs x) (ht : TailReads R symbols cs' op) :
    ProductReads R symbols (cs ++ cs') (op x) := by
  obtain ⟨p, hp⟩ := hf
  obtain ⟨tail, hwrites, hmeans⟩ := ht.tail
  refine ⟨.mk (.power p) tail, start_append hp.start, fun rest ks hrest hks => ?_,
    hmeans _ _ hp.means⟩
  have hall := hp.writes.append_mark (ht.ends.append hrest) (hwrites rest ks hrest hks)
  simpa [ProductTree.kinds, SignedTree.kinds] using hall

/-- A sign in front of a product is that of its first factor. -/
theorem PowerReads.negProduct (hf : PowerReads R symbols cs x) (ht : TailReads R symbols cs' op) :
    ProductReads R symbols ('-' :: (cs ++ cs')) (op (-x)) := by
  obtain ⟨p, hp⟩ := hf
  obtain ⟨tail, hwrites, hmeans⟩ := ht.tail
  refine ⟨.mk (.sign .minus (.power p)) tail, ⟨'-', _, rfl, by decide⟩,
    fun rest ks hrest hks => ?_, hmeans _ _ hp.means.neg⟩
  have hall := hp.writes.append_mark (ht.ends.append hrest) (hwrites rest ks hrest hks)
  simpa [ProductTree.kinds, SignedTree.kinds, Sign.kind, Sign.mark] using hall.sign .minus

theorem productText_cons (f : String × ℕ) (fs : List (String × ℕ)) :
    TermLayout.productText (f :: fs) =
      TermLayout.powerText f ++ (fs.map TermLayout.powerText).flatMap fun y => '*' :: y := by
  rw [TermLayout.productText, List.map_cons, Polynomial.intercalate_cons]

theorem ProductReads.sum (h : ProductReads R symbols cs x) : SumReads R symbols cs x := by
  obtain ⟨p, hp⟩ := h
  refine ⟨.mk p .done, hp.start, fun rest ks hrest hks => ?_, hp.means⟩
  simpa [SumTree.kinds, SumTail.kinds] using hp.writes rest ks hrest hks

theorem AtomReads.bare (h : AtomReads R symbols cs x) : PowerReads R symbols cs x := by
  obtain ⟨a, ha⟩ := h
  exact ⟨.bare a, ha⟩

/-! ## Fractions -/

/-- Several factors below the bar are read as one atom, a single one as a power. -/
theorem powerReads_below (hgs : gs ≠ []) (h : PowersRead R symbols gs ys) :
    PowerReads R symbols (TermLayout.belowText gs) ys.prod := by
  cases h with
  | nil => exact absurd rfl hgs
  | @cons g y gs ys hg hrest =>
      rw [TermLayout.belowText, productText_cons]
      cases hrest with
      | nil => simpa using hg
      | @cons g' y' gs ys hg' hrest =>
          have hproduct := hg.product (tailReads_nil.stars (.cons hg' hrest))
          rw [List.append_nil] at hproduct
          rw [if_pos (by simp), List.prod_cons]
          exact hproduct.sum.parens.bare

/-- The first factor above the bar, and what is done to it. A sign goes through. -/
def FractionReads (R : Reading Float F) (symbols : String → F) (cs : List Char) (x : F) : Prop :=
  ∃ first rest y op, cs = first ++ rest ∧ PowerReads R symbols first y ∧
    TailReads R symbols rest op ∧ op y = x ∧ op (-y) = -x

theorem fractionReads {t : TermLayout} (hne : t.above ≠ []) (habove : PowersRead R symbols t.above xs)
    (hbelow : PowersRead R symbols t.below ys) :
    FractionReads R symbols t.text (xs.prod / ys.prod) := by
  obtain ⟨negative, above, below⟩ := t
  dsimp only at hne habove hbelow
  rw [TermLayout.text, TermLayout.fractionParts, Polynomial.intercalate_cons]
  cases habove with
  | nil => exact absurd rfl hne
  | @cons f x fs xs hf hfs =>
      rw [productText_cons, List.append_assoc, List.prod_cons]
      by_cases hempty : below = []
      · subst hempty
        cases hbelow
        refine ⟨_, _, x, _, rfl, hf, (tailReads_nil.stars hfs), ?_, ?_⟩
        · simp
        · simp
      · have hslash := (tailReads_slash (powerReads_below hempty hbelow)).stars hfs
        refine ⟨_, _, x, fun y => y * xs.prod / ys.prod, rfl, hf, ?_, rfl, ?_⟩
        · simpa [hempty] using hslash
        · dsimp only
          rw [neg_mul, neg_div]

theorem FractionReads.product (h : FractionReads R symbols cs x) : ProductReads R symbols cs x := by
  obtain ⟨first, rest, y, op, rfl, hfirst, hrest, rfl, -⟩ := h
  exact hfirst.product hrest

theorem FractionReads.negProduct (h : FractionReads R symbols cs x) :
    ProductReads R symbols ('-' :: cs) (-x) := by
  obtain ⟨first, rest, y, op, rfl, hfirst, hrest, -, hneg⟩ := h
  rw [← hneg]
  exact hfirst.negProduct hrest

/-! ## Sums -/

/-- What stands behind the first term of a sum, with what it adds. -/
structure SumTailReads (R : Reading Float F) (symbols : String → F) (cs : List Char) (d : F) :
    Prop where
  ends : Ends cs
  tail : ∃ tail : SumTail, Lexer.Writes cs tail.kinds ∧
    ∀ left y, Means R symbols left y → Means R symbols (tail.exprFrom left) (y + d)

theorem sumTailReads_nil : SumTailReads R symbols [] 0 :=
  ⟨ends_nil, .done, fun _ _ _ h => h, fun _ y h => by rwa [add_zero]⟩

theorem SumTailReads.more {d z : F} (h : SumTailReads R symbols cs' d)
    (hp : ProductReads R symbols cs x) (sign : Sign)
    (hz : ∀ y, R.binary sign.op y x = y + z) :
    SumTailReads R symbols
      (' ' :: sign.mark :: ' ' :: (cs ++ cs')) (z + d) := by
  obtain ⟨p, hp⟩ := hp
  obtain ⟨tail, hwrites, hmeans⟩ := h.tail
  refine ⟨ends_cons (by decide), .more sign p tail, fun rest ks hrest hks => ?_,
    fun left y hleft => ?_⟩
  · have hall := hp.writes.append_mark (h.ends.append hrest) (hwrites rest ks hrest hks)
    simpa [SumTail.kinds] using (hall.space.sign sign).space
  · have hsum := hmeans _ _ (hleft.binary sign.op hp.means)
    rwa [hz, add_assoc] at hsum

/-- The term is read as its fraction, with its sign. -/
def TermReads (R : Reading Float F) (symbols : String → F) (t : TermLayout) (x : F) : Prop :=
  ∃ y, FractionReads R symbols t.text y ∧ x = (if t.negative then -1 else 1) * y

theorem sumTailReads {ts : List TermLayout} (h : List.Forall₂ (TermReads R symbols) ts xs) :
    SumTailReads R symbols ((TermLayout.signedTexts ts).flatMap fun y => ' ' :: y) xs.sum := by
  induction h with
  | nil => exact sumTailReads_nil
  | @cons t x ts xs ht _ ih =>
      obtain ⟨y, hy, rfl⟩ := ht
      rw [List.sum_cons]
      cases hneg : t.negative with
      | true =>
          have hmore := ih.more hy.product .minus (z := -1 * y) fun w => by
            show w - y = _
            ring
          simpa [TermLayout.signedTexts, hneg, Sign.mark] using hmore
      | false =>
          have hmore := ih.more hy.product .plus (z := 1 * y) fun w => by
            show w + y = _
            ring
          simpa [TermLayout.signedTexts, hneg, Sign.mark] using hmore

/-- The parts of a sum, with spaces between them, are read as the sum of the terms. -/
theorem sumReads_parts {ts : List TermLayout} (hne : ts ≠ [])
    (h : List.Forall₂ (TermReads R symbols) ts xs) :
    SumReads R symbols ([' '].intercalate (TermLayout.parts ts)) xs.sum := by
  cases h with
  | nil => exact absurd rfl hne
  | @cons t x ts xs ht hts =>
      obtain ⟨y, hy, rfl⟩ := ht
      obtain ⟨tail, hwrites, hmeans⟩ := (sumTailReads hts).tail
      have hfirst : ProductReads R symbols ((if t.negative then ['-'] else []) ++ t.text)
          ((if t.negative then -1 else 1) * y) := by
        cases t.negative with
        | true => simpa using hy.negProduct
        | false => simpa using hy.product
      obtain ⟨p, hp⟩ := hfirst
      rw [TermLayout.parts, Polynomial.intercalate_cons, List.sum_cons]
      refine ⟨.mk p tail, start_append hp.start, fun rest ks hrest hks => ?_, hmeans _ _ hp.means⟩
      have hall := hp.writes.append_mark ((sumTailReads hts).ends.append hrest)
        (hwrites rest ks hrest hks)
      simpa [SumTree.kinds] using hall

/-! ## Calls -/

/-- The arguments of a call, with commas between them. -/
def RowReads (R : Reading Float F) (symbols : String → F) (cs : List Char) (xs : List F) : Prop :=
  ∃ r : RowTree, Lexer.Writes cs r.kinds ∧
    Expr.valuesAll? (R.meaning symbols) (Expr.mapNumbersAll R.toField r.exprs) = some xs

theorem SumReads.row (h : SumReads R symbols cs x) : RowReads R symbols cs [x] := by
  obtain ⟨s, hs⟩ := h
  refine ⟨.last s, hs.writes, ?_⟩
  rw [RowTree.exprs, Expr.mapNumbersAll, Expr.valuesAll?, hs.means]
  rfl

theorem RowReads.cons (hr : RowReads R symbols cs' xs) (h : SumReads R symbols cs x) :
    RowReads R symbols (cs ++ ',' :: ' ' :: cs') (x :: xs) := by
  obtain ⟨s, hs⟩ := h
  obtain ⟨r, hwrites, hvalues⟩ := hr
  refine ⟨.more s r, fun rest ks hrest hks => ?_, ?_⟩
  · have hcomma := (hwrites rest ks hrest hks).space.comma
    have hall := hs.writes.append_mark (ends_cons (by decide)) hcomma
    simpa [RowTree.kinds] using hall
  · rw [RowTree.exprs, Expr.mapNumbersAll, Expr.valuesAll?, hs.means, hvalues]

theorem rowReads {texts : List (List Char)} (hne : texts ≠ [])
    (h : List.Forall₂ (SumReads R symbols) texts xs) :
    RowReads R symbols ([',', ' '].intercalate texts) xs := by
  induction h with
  | nil => exact absurd rfl hne
  | @cons cs x texts xs hcs hrest ih =>
      cases hrest with
      | nil =>
          rw [List.intercalate_singleton]
          exact hcs.row
      | cons hcs' hrest =>
          have hrow := (ih (List.cons_ne_nil _ _)).cons hcs
          simpa [List.intercalate_cons_cons] using hrow

theorem atomReads_call {name : String} (hname : Lexer.isName name = true)
    {texts : List (List Char)} (h : List.Forall₂ (SumReads R symbols) texts xs) :
    AtomReads R symbols (name.toList ++ '(' :: ([',', ' '].intercalate texts ++ [')']))
      (R.function name xs) := by
  have hopen : ∀ {rest : List Char} {ks : List TokenKind}, Lexes rest ks →
      Lexes (name.toList ++ '(' :: rest) (.name name :: .leftParen :: ks) :=
    fun h => .name hname (Lexer.separated_cons (by decide)) h.leftParen
  have hstart : ∃ c rest, name.toList ++ '(' :: ([',', ' '].intercalate texts ++ [')']) =
      c :: rest ∧ c ≠ '*' :=
    start_append (start_of_isName hname)
  cases h with
  | nil =>
      refine ⟨.emptyCall name, hstart, fun rest ks _ hks => ?_, Means.call name rfl⟩
      simpa [AtomTree.kinds] using hopen hks.rightParen
  | @cons cs x texts xs hcs htexts =>
      obtain ⟨r, hwrites, hvalues⟩ := rowReads (List.cons_ne_nil _ _) (.cons hcs htexts)
      refine ⟨.call name r, hstart, fun rest ks _ hks => ?_, Means.call name hvalues⟩
      have hclose := hopen (hwrites.append_mark (ends_cons (by decide)) hks.rightParen)
      simpa [AtomTree.kinds] using hclose

end SymbolicRegression
