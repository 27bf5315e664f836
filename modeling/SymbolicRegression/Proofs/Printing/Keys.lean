import SymbolicRegression.Proofs.Expansion.BuiltAtoms
import SymbolicRegression.Proofs.Printing.Labels

/-!
# What a key shows

Atoms are equal if their keys are, and a key is a printed text. For the atoms that expansion builds
it can be read back: a symbol is a word, a function is a word in front of its arguments, and a group
is a sum of at least two terms in parentheses. So two atoms have the same key exactly if they are of
one kind, have one name, and hold sums that are printed alike. Sums are printed alike exactly if they
have one layout, which shows coefficients through their labels only.
-/

namespace SymbolicRegression

open TermLayout

namespace Polynomial

variable {p q : Formula}

theorem mem_printedOrder {t : Monomial Float × Float} : t ∈ printedOrder p ↔ t ∈ p := by
  rw [printedOrder, List.mem_append, List.mem_filter, List.mem_filter]
  cases t.1.isEmpty <;> simp

theorem printedOrder_eq_nil : printedOrder p = [] ↔ p = [] := by
  rw [List.eq_nil_iff_forall_not_mem, List.eq_nil_iff_forall_not_mem]
  exact forall_congr' fun _ => not_congr mem_printedOrder

theorem length_printedOrder (p : Formula) : (printedOrder p).length = p.length := by
  rw [printedOrder, List.length_append, Nat.add_comm]
  exact (List.length_eq_length_filter_add fun t : Monomial Float × Float => t.1.isEmpty).symm

theorem layout_eq_map (h : p ≠ []) : layout p = (printedOrder p).map termLayout := by
  rw [layout.eq_def]
  split
  · next hnil => exact absurd (printedOrder_eq_nil.mp hnil) h
  · rfl

theorem layout_ne_nil (p : Formula) : layout p ≠ [] := by
  rw [layout.eq_def]
  split
  · exact List.cons_ne_nil _ _
  · next hne => exact fun h => hne (List.map_eq_nil_iff.mp h)

/-! ## Legible sums -/

/-- Above the bar a term shows its label in front of its powers. Only the label of one is left out,
where there are powers to show. -/
theorem above_termLayout (t : Monomial Float × Float) :
    (termLayout t).above = (labelOf t, 1) :: powers (fun e => decide (0 < e)) t.1 ∨
      labelOf t = "1" ∧ powers (fun e => decide (0 < e)) t.1 ≠ [] ∧
        (termLayout t).above = powers (fun e => decide (0 < e)) t.1 := by
  rw [termLayout]
  dsimp only
  generalize powers (fun e => decide (0 < e)) t.1 = upper
  cases heq : Scalar.eq (Scalar.abs t.2) (Scalar.one : Float) with
  | false => exact .inl rfl
  | true =>
      have hone : labelOf t = "1" := Number.label_of_eq_one heq
      cases upper with
      | cons f upper => exact .inr ⟨hone, List.cons_ne_nil _ _, rfl⟩
      | nil =>
          -- nothing stands above but a one, which is shown as the label would be
          rw [hone]
          cases (powers (fun e => decide (e ≤ 0)) t.1).isEmpty with
          | true => exact .inl rfl
          | false => exact .inl rfl

/-- The keys of all atoms in the term are bases. -/
def KeysAreBases (t : Monomial Float × Float) : Prop :=
  ∀ f ∈ t.1, Base f.1.key.toList

theorem base_powers {t : Monomial Float × Float} (ht : KeysAreBases t) (keep : Int → Bool) :
    ∀ f ∈ powers keep t.1, Base f.1.toList := by
  intro g hg
  obtain ⟨f, hf, rfl⟩ := List.mem_map.mp hg
  exact ht f (List.mem_filter.mp hf).1

theorem legible_termLayout {t : Monomial Float × Float} (ht : KeysAreBases t) :
    (termLayout t).Legible := by
  have hlabel : Base (labelOf t).toList := (Number.isWord_label t.2).base
  have hpowers := base_powers ht fun e => decide (0 < e)
  rcases above_termLayout t with habove | ⟨-, hne, habove⟩
  · refine ⟨?_, ?_, base_powers ht fun e => decide (e ≤ 0)⟩
    · rw [habove]
      exact List.cons_ne_nil _ _
    · rw [habove]
      exact List.forall_mem_cons.mpr ⟨hlabel, hpowers⟩
  · refine ⟨?_, ?_, base_powers ht fun e => decide (e ≤ 0)⟩
    · rw [habove]
      exact hne
    · rw [habove]
      exact hpowers

theorem isWord_zero : IsWord "0" :=
  isWord_of_all (by decide) (by decide)

theorem legible_layout (hp : ∀ t ∈ p, KeysAreBases t) : ∀ t ∈ layout p, t.Legible := by
  rw [layout.eq_def]
  split
  · refine List.forall_mem_singleton.mpr ⟨List.cons_ne_nil _ _, ?_, List.forall_mem_nil _⟩
    exact List.forall_mem_singleton.mpr isWord_zero.base
  · intro u hu
    obtain ⟨t, ht, rfl⟩ := List.mem_map.mp hu
    exact legible_termLayout (hp t (mem_printedOrder.mp ht))

theorem nested_text (hp : ∀ t ∈ p, KeysAreBases t) : Nested (· ≠ ',') (text p).toList := by
  rw [toList_text]
  refine .intercalate (by decide) (by decide) (by decide) fun x hx => ?_
  exact (nested_parts (legible_layout hp) x hx).mono fun _ h => h.2

theorem text_ne_nil (hp : ∀ t ∈ p, KeysAreBases t) : (text p).toList ≠ [] := by
  obtain ⟨t, ts, hts⟩ := List.exists_cons_of_ne_nil (layout_ne_nil p)
  rw [toList_text, hts]
  refine Nested.intercalate_cons_ne_nil (List.append_ne_nil_of_right_ne_nil _ ?_)
  exact (legible_layout hp t (hts ▸ List.mem_cons_self)).text_ne_nil

theorem parts_ne_nil {ts : List TermLayout} (h : ts ≠ []) : parts ts ≠ [] := by
  obtain ⟨t, ts, rfl⟩ := List.exists_cons_of_ne_nil h
  exact List.cons_ne_nil _ _

/-- Sums are printed alike exactly if they are laid out alike. -/
theorem text_inj (hp : ∀ t ∈ p, KeysAreBases t) (hq : ∀ t ∈ q, KeysAreBases t) :
    text p = text q ↔ layout p = layout q := by
  rw [← String.toList_inj, toList_text, toList_text]
  refine ⟨fun h => ?_, fun h => by rw [h]⟩
  have hparts : ∀ p : Formula, (∀ t ∈ p, KeysAreBases t) →
      ∀ x ∈ parts (layout p), Nested (· ≠ ' ') x := fun p hp x hx =>
    (nested_parts (legible_layout hp) x hx).mono fun _ h => h.1
  refine parts_inj (legible_layout hp) (legible_layout hq) ?_
  exact Nested.intercalate_inj (by decide) (hparts p hp) (hparts q hq)
    (parts_ne_nil (layout_ne_nil p)) (parts_ne_nil (layout_ne_nil q)) h

/-- Each term after the first one adds a sign and a text. -/
theorem one_lt_length_parts {ts : List TermLayout} (h : 1 < ts.length) :
    1 < (parts ts).length := by
  match ts with
  | [] => exact absurd h (by decide)
  | [_] => exact absurd h (Nat.lt_irrefl 1)
  | t :: u :: ts =>
      rw [parts, signedTexts, List.flatMap_cons]
      simp only [List.length_cons, List.length_append]
      omega

end Polynomial

/-! ## The arguments of a call -/

namespace Atom

open SymbolicRegression.Polynomial

theorem toList_key_ofCall (name : String) (ps : List Formula) :
    (ofCall name ps).key.toList =
      name.toList ++ '(' ::
        ([',', ' '].intercalate (ps.map fun p => (Polynomial.text p).toList) ++ [')']) := by
  rw [ofCall, key, String.toList_append, String.toList_append, String.toList_append,
    String.toList_intercalate, List.map_map, List.append_assoc, List.append_assoc]
  rfl

theorem toList_key_ofGroup (p : Formula) :
    (ofGroup p).key.toList = '(' :: ([' '].intercalate (parts (layout p)) ++ [')']) := by
  rw [ofGroup, key, String.toList_append, String.toList_append, toList_text]
  rfl

/-- The texts between commas: behind the first argument, each starts with a space. -/
def pieces : List (List Char) → List (List Char)
  | [] => []
  | x :: xs => x :: xs.map (' ' :: ·)

theorem intercalate_comma (xs : List (List Char)) :
    [',', ' '].intercalate xs = [','].intercalate (pieces xs) := by
  cases xs with
  | nil => rfl
  | cons x xs =>
      rw [pieces]
      induction xs generalizing x with
      | nil => rw [List.map_nil, List.intercalate_singleton, List.intercalate_singleton]
      | cons y ys ih =>
          rw [List.intercalate_cons_cons, ih y, List.map_cons, List.intercalate_cons_cons]
          cases ys with
          | nil =>
              rw [List.map_nil, List.intercalate_singleton, List.intercalate_singleton]
              simp
          | cons z zs =>
              rw [List.map_cons, List.intercalate_cons_cons, List.intercalate_cons_cons]
              simp

theorem pieces_inj {xs ys : List (List Char)} (h : pieces xs = pieces ys) : xs = ys := by
  cases xs with
  | nil =>
      cases ys with
      | nil => rfl
      | cons y ys => cases h
  | cons x xs =>
      cases ys with
      | nil => cases h
      | cons y ys =>
          obtain ⟨rfl, htail⟩ := List.cons.inj h
          rw [List.map_injective_iff.mpr (fun _ _ => List.cons_inj_right ' ' |>.mp) htail]

theorem nested_pieces {xs : List (List Char)} (h : ∀ x ∈ xs, Nested (· ≠ ',') x) :
    ∀ x ∈ pieces xs, Nested (· ≠ ',') x := by
  cases xs with
  | nil => exact List.forall_mem_nil _
  | cons x xs =>
      obtain ⟨hx, hxs⟩ := List.forall_mem_cons.mp h
      rw [pieces, List.forall_mem_cons]
      refine ⟨hx, fun y hy => ?_⟩
      obtain ⟨z, hz, rfl⟩ := List.mem_map.mp hy
      exact .char (by decide) (by decide) (by decide) (hxs z hz)

/-- Arguments can be told apart if each of them has a text without a comma of its own. -/
theorem intercalate_comma_inj {xs ys : List (List Char)}
    (hxs : ∀ x ∈ xs, x ≠ [] ∧ Nested (· ≠ ',') x) (hys : ∀ y ∈ ys, y ≠ [] ∧ Nested (· ≠ ',') y)
    (h : [',', ' '].intercalate xs = [',', ' '].intercalate ys) : xs = ys := by
  rw [intercalate_comma, intercalate_comma] at h
  cases xs with
  | nil =>
      cases ys with
      | nil => rfl
      | cons y ys =>
          exact absurd h.symm (Nested.intercalate_cons_ne_nil (hys y List.mem_cons_self).1)
  | cons x xs =>
      cases ys with
      | nil => exact absurd h (Nested.intercalate_cons_ne_nil (hxs x List.mem_cons_self).1)
      | cons y ys =>
          refine pieces_inj (Nested.intercalate_inj (by decide) ?_ ?_ (List.cons_ne_nil _ _)
            (List.cons_ne_nil _ _) h)
          · exact nested_pieces fun x hx => (hxs x hx).2
          · exact nested_pieces fun y hy => (hys y hy).2

/-! ## Keys of built atoms -/

/-- The key of an atom is a base, whatever is nested in it. -/
theorem Built.base {a : Atom Float} (h : a.Built) : Base a.key.toList := by
  induction h with
  | symbol hname => exact (isWord_of_isName hname).base
  | call hname _ _ ih =>
      obtain ⟨hne, hword⟩ := isWord_of_isName hname
      rw [toList_key_ofCall, intercalate_comma]
      refine .application hne hword (.intercalate (by decide) (by decide) trivial fun x hx => ?_)
      refine (nested_pieces (fun y hy => ?_) x hx).any
      obtain ⟨p, hp, rfl⟩ := List.mem_map.mp hy
      exact nested_text (ih p hp)
  | @group body hmany _ _ ih =>
      have hbody : body ≠ [] := List.ne_nil_of_length_pos (Nat.lt_trans Nat.zero_lt_one hmany)
      rw [toList_key_ofGroup]
      refine .group (one_lt_length_parts ?_) fun x hx => ?_
      · rwa [layout_eq_map hbody, List.length_map, length_printedOrder]
      · exact (nested_parts (legible_layout ih) x hx).mono fun _ h => h.1

theorem keysAreBases_of_built {p : Formula} (hp : ∀ t ∈ p, ∀ f ∈ t.1, f.1.Built) :
    ∀ t ∈ p, KeysAreBases t :=
  fun t ht f hf => (hp t ht f hf).base

/-- Atoms of one kind and with one name, which hold sums that are related. -/
def Agree (R : Formula → Formula → Prop) : Atom Float → Atom Float → Prop
  | symbol m, symbol n => m = n
  | call _ f ps, call _ g qs => f = g ∧ List.Forall₂ R ps qs
  | group _ p, group _ q => R p q
  | _, _ => False

theorem word_append_inj {s s' : List Char} :
    ∀ {w w' : List Char}, (∀ c ∈ w, isWordChar c = true) → (∀ c ∈ w', isWordChar c = true) →
      w ++ '(' :: s = w' ++ '(' :: s' → w = w' ∧ s = s'
  | [], [], _, _, h => ⟨rfl, (List.cons.inj h).2⟩
  | [], c :: w', _, hw', h => by
      obtain ⟨rfl, -⟩ := List.cons.inj h
      exact absurd (hw' _ List.mem_cons_self) (by decide)
  | c :: w, [], hw, _, h => by
      obtain ⟨rfl, -⟩ := List.cons.inj h
      exact absurd (hw _ List.mem_cons_self) (by decide)
  | c :: w, c' :: w', hw, hw', h => by
      obtain ⟨rfl, -⟩ := List.cons.inj h
      obtain ⟨rfl, hs⟩ := word_append_inj (List.forall_mem_cons.mp hw).2
        (List.forall_mem_cons.mp hw').2 (List.cons.inj h).2
      exact ⟨rfl, hs⟩

/-- A text with an opening parenthesis is no word. -/
theorem word_ne_append {w v s : List Char} (hw : ∀ c ∈ w, isWordChar c = true) :
    w ≠ v ++ '(' :: s := by
  rintro rfl
  exact absurd (hw '(' (List.mem_append_right v List.mem_cons_self)) (by decide)

/-- An opening parenthesis in front is no name. -/
theorem append_ne_paren {w s s' : List Char} (hne : w ≠ [])
    (hw : ∀ c ∈ w, isWordChar c = true) : w ++ '(' :: s ≠ '(' :: s' := by
  obtain ⟨c, cs, rfl⟩ := List.exists_cons_of_ne_nil hne
  intro h
  obtain ⟨rfl, -⟩ := List.cons.inj h
  exact absurd (hw '(' List.mem_cons_self) (by decide)

theorem texts_eq_iff (ps qs : List Formula) :
    (ps.map fun p => (Polynomial.text p).toList) = (qs.map fun q => (Polynomial.text q).toList) ↔
      List.Forall₂ (fun p q => Polynomial.text p = Polynomial.text q) ps qs := by
  rw [← List.forall₂_eq_eq_eq, List.forall₂_map_left_iff, List.forall₂_map_right_iff]
  simp only [String.toList_inj]

theorem key_ofCall_eq_iff {f g : String} {ps qs : List Formula} (hf : Lexer.isName f = true)
    (hg : Lexer.isName g = true) (hps : ∀ p ∈ ps, ∀ t ∈ p, KeysAreBases t)
    (hqs : ∀ q ∈ qs, ∀ t ∈ q, KeysAreBases t) :
    (ofCall f ps).key = (ofCall g qs).key ↔
      f = g ∧ List.Forall₂ (fun p q => Polynomial.text p = Polynomial.text q) ps qs := by
  have htexts : ∀ ps : List Formula, (∀ p ∈ ps, ∀ t ∈ p, KeysAreBases t) →
      ∀ x ∈ ps.map fun p => (Polynomial.text p).toList, x ≠ [] ∧ Nested (· ≠ ',') x := by
    intro ps hps x hx
    obtain ⟨p, hp, rfl⟩ := List.mem_map.mp hx
    exact ⟨text_ne_nil (hps p hp), nested_text (hps p hp)⟩
  rw [← texts_eq_iff, ← String.toList_inj, toList_key_ofCall, toList_key_ofCall]
  constructor
  · intro h
    obtain ⟨hname, hinner⟩ :=
      word_append_inj (isWord_of_isName hf).2 (isWord_of_isName hg).2 h
    refine ⟨String.toList_inj.mp hname, ?_⟩
    exact intercalate_comma_inj (htexts ps hps) (htexts qs hqs) (List.append_cancel_right hinner)
  · rintro ⟨rfl, h⟩
    rw [h]

theorem key_ofGroup_eq_iff (p q : Formula) :
    (ofGroup p).key = (ofGroup q).key ↔ Polynomial.text p = Polynomial.text q := by
  rw [← String.toList_inj, ← String.toList_inj, toList_key_ofGroup, toList_key_ofGroup,
    ← toList_text, ← toList_text, List.cons_eq_cons, List.append_left_inj]
  exact and_iff_right rfl

/-- Two atoms that expansion builds have one key exactly if what they hold is printed alike. -/
theorem Built.key_eq_iff {a b : Atom Float} (ha : a.Built) (hb : b.Built) :
    a.key = b.key ↔ a.Agree (fun p q => Polynomial.text p = Polynomial.text q) b := by
  have hcalls : ∀ {ps : List Formula}, (∀ p ∈ ps, ∀ t ∈ p, ∀ f ∈ t.1, f.1.Built) →
      ∀ p ∈ ps, ∀ t ∈ p, KeysAreBases t := fun hps p hp => keysAreBases_of_built (hps p hp)
  rw [← String.toList_inj]
  cases ha with
  | symbol hm =>
      obtain ⟨-, hword⟩ := isWord_of_isName hm
      cases hb with
      | symbol _ => exact String.toList_inj
      | call _ _ _ =>
          rw [toList_key_ofCall]
          exact iff_of_false (word_ne_append hword) not_false
      | group _ _ _ =>
          rw [toList_key_ofGroup]
          exact iff_of_false (word_ne_append (v := []) hword) not_false
  | call hf _ hps =>
      obtain ⟨hne, hword⟩ := isWord_of_isName hf
      cases hb with
      | symbol hn =>
          rw [toList_key_ofCall]
          exact iff_of_false (word_ne_append (isWord_of_isName hn).2).symm not_false
      | call hg _ hqs =>
          rw [String.toList_inj]
          exact key_ofCall_eq_iff hf hg (hcalls hps) (hcalls hqs)
      | group _ _ _ =>
          rw [toList_key_ofCall, toList_key_ofGroup]
          exact iff_of_false (append_ne_paren hne hword) not_false
  | group _ _ _ =>
      cases hb with
      | symbol hn =>
          rw [toList_key_ofGroup]
          exact iff_of_false (word_ne_append (v := []) (isWord_of_isName hn).2).symm not_false
      | call hg _ _ =>
          obtain ⟨hne, hword⟩ := isWord_of_isName hg
          rw [toList_key_ofCall, toList_key_ofGroup]
          exact iff_of_false (append_ne_paren hne hword).symm not_false
      | group _ _ _ =>
          rw [String.toList_inj]
          exact key_ofGroup_eq_iff _ _

theorem Built.compareAtoms_eq_iff {a b : Atom Float} (ha : a.Built) (hb : b.Built) :
    Coefficient.compareAtoms a b = .eq ↔
      a.Agree (fun p q => Polynomial.text p = Polynomial.text q) b :=
  Std.LawfulEqOrd.compare_eq_iff_eq.trans (ha.key_eq_iff hb)

end Atom

end SymbolicRegression
