import Mathlib.Data.List.Basic

/-!
# Texts with matching parentheses

A formula is printed by joining texts with a mark between them: terms with spaces, numerator and
denominator with a slash, factors with stars, base and exponent with a caret, arguments with commas.
The parts can be told apart again because each mark stands between the parts but, outside of
parentheses, in none of them. `Nested P` says this of one part: its parentheses match, and the
characters outside of them satisfy `P`. Since a closing parenthesis without an opening one is never
outside, the same argument finds the end of a text in parentheses.
-/

namespace SymbolicRegression

/-- Lists with the same image under one function have the same image under another one that tells
no more of their elements apart. -/
theorem map_eq_of_map_eq {α β γ : Type} {f : α → β} {g : α → γ} :
    ∀ {xs ys : List α}, (∀ x ∈ xs, ∀ y ∈ ys, f x = f y → g x = g y) → xs.map f = ys.map f →
      xs.map g = ys.map g
  | [], [], _, _ => rfl
  | [], _ :: _, _, h => by cases h
  | _ :: _, [], _, h => by cases h
  | x :: xs, y :: ys, hfg, h => by
      obtain ⟨hhead, htail⟩ := List.cons.inj h
      have hrest := map_eq_of_map_eq (fun x' hx' y' hy' => hfg x' (List.mem_cons_of_mem x hx') y'
        (List.mem_cons_of_mem y hy')) htail
      rw [List.map_cons, List.map_cons, hrest, hfg x List.mem_cons_self y List.mem_cons_self hhead]

/-- The parentheses match, and every character outside of them satisfies the predicate. -/
inductive Nested : (Char → Prop) → List Char → Prop
  | nil {P : Char → Prop} : Nested P []
  | char {P : Char → Prop} {c : Char} {cs : List Char} (hopen : c ≠ '(') (hclose : c ≠ ')')
      (hc : P c) (hcs : Nested P cs) : Nested P (c :: cs)
  | parens {P : Char → Prop} {inner cs : List Char} (hinner : Nested (fun _ => True) inner)
      (hcs : Nested P cs) : Nested P ('(' :: (inner ++ ')' :: cs))

namespace Nested

variable {P Q : Char → Prop} {s t : List Char}

theorem mono (h : Nested P s) (hPQ : ∀ c, P c → Q c) : Nested Q s := by
  induction h with
  | nil => exact .nil
  | char hopen hclose hc _ ih => exact .char hopen hclose (hPQ _ hc) (ih hPQ)
  | parens hinner _ _ ih => exact .parens hinner (ih hPQ)

theorem any (h : Nested P s) : Nested (fun _ => True) s :=
  h.mono fun _ _ => trivial

theorem append (hs : Nested P s) (ht : Nested P t) : Nested P (s ++ t) := by
  induction hs with
  | nil => exact ht
  | char hopen hclose hc _ ih => exact .char hopen hclose hc (ih ht)
  | parens hinner _ _ ih =>
      rw [List.cons_append, List.append_assoc, List.cons_append]
      exact .parens hinner (ih ht)

/-- What stands in parentheses is of no account. -/
theorem enclosed (h : Nested P s) : Nested Q ('(' :: (s ++ [')'])) :=
  .parens h.any .nil

theorem of_forall (h : ∀ c ∈ s, c ≠ '(' ∧ c ≠ ')' ∧ P c) : Nested P s := by
  induction s with
  | nil => exact .nil
  | cons c cs ih =>
      obtain ⟨⟨hopen, hclose, hc⟩, hcs⟩ := List.forall_mem_cons.mp h
      exact .char hopen hclose hc (ih hcs)

theorem intercalate {d : Char} {xs : List (List Char)} (hopen : d ≠ '(') (hclose : d ≠ ')')
    (hd : P d) (h : ∀ x ∈ xs, Nested P x) : Nested P ([d].intercalate xs) := by
  induction xs with
  | nil => exact .nil
  | cons x xs ih =>
      obtain ⟨hx, hxs⟩ := List.forall_mem_cons.mp h
      cases xs with
      | nil =>
          rw [List.intercalate_singleton]
          exact hx
      | cons y ys =>
          rw [List.intercalate_cons_cons, List.append_assoc]
          exact hx.append (.char hopen hclose hd (ih hxs))

/-! ## Finding the end -/

/-- A text ends at the first mark that is not inside of it. For a closing parenthesis that is the one
that matches none of its own. -/
theorem split {d : Char} (hopen : d ≠ '(') (hs : Nested P s) :
    ∀ {Q : Char → Prop} {t rest rest' : List Char}, (P d → d = ')') → Nested Q t →
      (Q d → d = ')') → s ++ d :: rest = t ++ d :: rest' → s = t ∧ rest = rest' := by
  induction hs generalizing d with
  | nil =>
      intro Q t rest rest' _ ht hQ heq
      cases ht with
      | nil => exact ⟨rfl, (List.cons.inj heq).2⟩
      | char _ hclose hc _ =>
          obtain ⟨rfl, -⟩ := List.cons.inj heq
          exact absurd (hQ hc) hclose
      | parens _ _ => exact absurd (List.cons.inj heq).1 hopen
  | char hopen' hclose' hc _ ih =>
      intro Q t rest rest' hP ht hQ heq
      cases ht with
      | nil =>
          obtain ⟨rfl, -⟩ := List.cons.inj heq
          exact absurd (hP hc) hclose'
      | char _ _ _ hcs =>
          obtain ⟨rfl, htail⟩ := List.cons.inj heq
          obtain ⟨rfl, hrest⟩ := ih hopen hP hcs hQ htail
          exact ⟨rfl, hrest⟩
      | parens _ _ => exact absurd (List.cons.inj heq).1 hopen'
  | parens _ _ ihInner ih =>
      intro Q t rest rest' hP ht hQ heq
      cases ht with
      | nil => exact absurd (List.cons.inj heq).1.symm hopen
      | char hopen' _ _ _ => exact absurd (List.cons.inj heq).1.symm hopen'
      | parens hinner hcs =>
          simp only [List.cons_append, List.append_assoc, List.cons.injEq, true_and] at heq
          obtain ⟨rfl, htail⟩ := ihInner (by decide) (fun _ => rfl) hinner (fun _ => rfl) heq
          obtain ⟨rfl, hrest⟩ := ih hopen hP hcs hQ htail
          exact ⟨rfl, hrest⟩

/-- What stands in parentheses ends where they close. -/
theorem enclosed_inj (hs : Nested P s) (ht : Nested Q t) {rest rest' : List Char}
    (h : s ++ ')' :: rest = t ++ ')' :: rest') : s = t ∧ rest = rest' :=
  hs.any.split (by decide) (fun _ => rfl) ht.any (fun _ => rfl) h

/-! ## Taking joined texts apart -/

theorem intercalate_append_mark {d : Char} :
    ∀ {xs : List (List Char)}, xs ≠ [] →
      [d].intercalate xs ++ [d] = xs.flatMap fun x => x ++ [d]
  | [], h => absurd rfl h
  | [x], _ => by rw [List.intercalate_singleton, List.flatMap_singleton]
  | x :: y :: ys, _ => by
      rw [List.intercalate_cons_cons, List.flatMap_cons, List.append_assoc,
        intercalate_append_mark (List.cons_ne_nil y ys)]

theorem flatMap_mark_inj {d : Char} (hopen : d ≠ '(') {xs : List (List Char)} :
    ∀ {ys : List (List Char)}, (∀ x ∈ xs, Nested (· ≠ d) x) → (∀ y ∈ ys, Nested (· ≠ d) y) →
      (xs.flatMap fun x => x ++ [d]) = (ys.flatMap fun y => y ++ [d]) → xs = ys := by
  induction xs with
  | nil =>
      intro ys _ _ h
      cases ys with
      | nil => rfl
      | cons y ys => simp at h
  | cons x xs ih =>
      intro ys hxs hys h
      cases ys with
      | nil => simp at h
      | cons y ys =>
          obtain ⟨hx, hxs'⟩ := List.forall_mem_cons.mp hxs
          obtain ⟨hy, hys'⟩ := List.forall_mem_cons.mp hys
          simp only [List.flatMap_cons, List.append_assoc, List.cons_append, List.nil_append] at h
          obtain ⟨rfl, htail⟩ :=
            hx.split hopen (fun hd => absurd rfl hd) hy (fun hd => absurd rfl hd) h
          rw [ih hxs' hys' htail]

theorem intercalate_cons_ne_nil {d : Char} {x : List Char} {xs : List (List Char)} (h : x ≠ []) :
    [d].intercalate (x :: xs) ≠ [] := by
  cases xs with
  | nil =>
      rw [List.intercalate_singleton]
      exact h
  | cons y ys =>
      rw [List.intercalate_cons_cons, List.append_assoc]
      exact List.append_ne_nil_of_left_ne_nil h _

/-- Joined texts are the same only if they were joined from the same parts, as long as no part has
the mark outside of parentheses. -/
theorem intercalate_inj {d : Char} (hopen : d ≠ '(') {xs ys : List (List Char)}
    (hxs : ∀ x ∈ xs, Nested (· ≠ d) x) (hys : ∀ y ∈ ys, Nested (· ≠ d) y) (hx : xs ≠ [])
    (hy : ys ≠ []) (h : [d].intercalate xs = [d].intercalate ys) : xs = ys := by
  apply flatMap_mark_inj hopen hxs hys
  rw [← intercalate_append_mark hx, h, intercalate_append_mark hy]

end Nested

end SymbolicRegression
