import Mathlib
import SymbolicRegression.Table.Selector

/-!
# Which column a selector names

A selector is read and then looked up, and each half has two readings that exclude each other: a text
is a position or a name, and a name is looked for as it stands and then up to letter case. What a text
selects is stated here without these searches, as a property of one column and of all the headers:
the first header that is equal, or, where there is none, the only one that is equal up to case.
-/

namespace SymbolicRegression

/-! ## Letter case -/

namespace Text

/-- The same character, or one of the letters A to Z and its small form. -/
def SameLetter (c d : Char) : Prop :=
  c = d ∨ ('A' ≤ c ∧ c ≤ 'Z' ∧ d.toNat = c.toNat + 32) ∨
    ('A' ≤ d ∧ d ≤ 'Z' ∧ c.toNat = d.toNat + 32)

theorem le_iff_toNat_le {c d : Char} : c ≤ d ↔ c.toNat ≤ d.toNat := Iff.rfl

theorem toNat_toLower (c : Char) :
    c.toLower.toNat = if 'A' ≤ c ∧ c ≤ 'Z' then c.toNat + 32 else c.toNat := by
  rw [Char.toLower]
  split
  · next h =>
    have hupper : c.toNat ≤ 90 := h.2
    have hletter : 'A' ≤ c ∧ c ≤ 'Z' := h
    rw [if_pos hletter]
    show (c.val + 32).toNat = c.toNat + 32
    rw [UInt32.toNat_add]
    exact Nat.mod_eq_of_lt (show c.toNat + 32 < 2 ^ 32 by omega)
  · next h =>
    have hletter : ¬('A' ≤ c ∧ c ≤ 'Z') := h
    rw [if_neg hletter]

theorem toLower_eq_toLower_iff {c d : Char} : c.toLower = d.toLower ↔ SameLetter c d := by
  rw [SameLetter, ← Char.toNat_inj, ← Char.toNat_inj, toNat_toLower, toNat_toLower]
  simp only [le_iff_toNat_le, show 'A'.toNat = 65 from rfl, show 'Z'.toNat = 90 from rfl]
  split <;> split <;> omega

/-- Texts are equal up to letter case if their characters are, one by one. -/
theorem sameIgnoringCase_iff {s t : String} :
    sameIgnoringCase s t = true ↔ List.Forall₂ SameLetter s.toList t.toList := by
  rw [sameIgnoringCase, beq_iff_eq, lower, lower, String.ofList_inj, ← List.forall₂_eq_eq_eq,
    List.forall₂_map_left_iff, List.forall₂_map_right_iff]
  simp only [toLower_eq_toLower_iff]

end Text

/-! ## Positions and names -/

namespace Numeral

/-- The text is the number in decimal digits, perhaps after a plus sign. -/
def Spells (text : String) (n : Nat) : Prop :=
  ∃ ds : List Char, (text.toList = ds ∨ text.toList = '+' :: ds) ∧ ds ≠ [] ∧
    (∀ d ∈ ds, d.isDigit = true) ∧ Nat.ofDigitChars 10 ds 0 = n

/-- Without a sign, a number is read from digits alone. -/
theorem ofDigits_below_eq_some_iff {bound n : Nat} {ds : List Char} :
    (if ds.isEmpty = true ∨ ¬ds.all Char.isDigit = true then none
      else if ofDigits ds < bound then some (ofDigits ds) else none) = some n ↔
      (ds ≠ [] ∧ (∀ d ∈ ds, d.isDigit = true) ∧ Nat.ofDigitChars 10 ds 0 = n) ∧ n < bound := by
  rw [Option.ite_none_left_eq_some, Option.ite_none_right_eq_some, Option.some_inj, not_or,
    not_not, List.isEmpty_iff, List.all_eq_true]
  constructor
  · rintro ⟨⟨hne, hall⟩, hlt, rfl⟩
    exact ⟨⟨hne, hall, rfl⟩, hlt⟩
  · rintro ⟨⟨hne, hall, rfl⟩, hlt⟩
    exact ⟨⟨hne, hall⟩, hlt, rfl⟩

theorem readNat?_eq_some_iff {bound n : Nat} {text : String} :
    readNat? bound text = some n ↔ Spells text n ∧ n < bound := by
  rw [readNat?, Spells]
  split
  · next rest hplus =>
    rw [ofDigits_below_eq_some_iff, hplus]
    refine and_congr_left' ⟨fun h => ⟨rest, .inr rfl, h⟩, ?_⟩
    rintro ⟨ds, hds | hds, h⟩
    · -- the sign is not a digit
      exact absurd (h.2.1 '+' (hds ▸ List.mem_cons_self)) (by decide)
    · cases hds
      exact h
  · next hplus =>
    rw [ofDigits_below_eq_some_iff]
    refine and_congr_left' ⟨fun h => ⟨_, .inl rfl, h⟩, ?_⟩
    rintro ⟨ds, rfl | hds, h⟩
    · exact h
    · exact absurd hds (hplus ds)

end Numeral

namespace Selector

/-- The text is a number of at most 64 bits. -/
def IsNumber (text : String) (n : Nat) : Prop :=
  Numeral.Spells text n ∧ n < 2 ^ 64

/-- The text is not empty, and no number. -/
def IsName (text : String) : Prop :=
  text ≠ "" ∧ ∀ n, ¬IsNumber text n

variable {oneBased : Bool} {text name : String} {i : Nat}

theorem isNumber_iff {n : Nat} :
    IsNumber text n ↔ Numeral.readNat? (Nat.pow 2 64) text = some n :=
  Numeral.readNat?_eq_some_iff.symm

theorem not_isNumber_empty (n : Nat) : ¬IsNumber "" n := by
  rintro ⟨⟨ds, hds | hds, hne, -⟩, -⟩
  · exact hne hds.symm
  · cases hds

/-- A position is written as it is counted, from zero or from one. -/
theorem read_eq_position_iff :
    read oneBased text = .ok (.position i) ↔
      IsNumber (Text.trim text) (i + if oneBased then 1 else 0) := by
  rw [read]
  split
  · next hempty =>
    rw [String.isEmpty_iff.mp hempty]
    exact iff_of_false (fun h => nomatch h) (not_isNumber_empty _)
  rw [isNumber_iff]
  split
  · next hnone =>
    rw [hnone]
    exact iff_of_false (fun h => nomatch h) (fun h => nomatch h)
  · next n hsome =>
    rw [hsome, Option.some_inj]
    cases oneBased with
    | false => simp
    | true => cases n <;> simp

/-- What is no number is a name. -/
theorem read_eq_name_iff :
    read oneBased text = .ok (.name name) ↔ Text.trim text = name ∧ IsName name := by
  rw [read]
  split
  · next hempty =>
    refine iff_of_false (fun h => nomatch h) ?_
    rintro ⟨rfl, hne, -⟩
    exact hne (String.isEmpty_iff.mp hempty)
  · next hempty =>
    split
    · next hnone =>
      constructor
      · intro h
        cases h
        refine ⟨rfl, fun h => hempty (String.isEmpty_iff.mpr h), fun n hn => ?_⟩
        exact Option.some_ne_none n ((isNumber_iff.mp hn).symm.trans hnone)
      · rintro ⟨rfl, -⟩
        rfl
    · next n hsome =>
      have hnumber : IsNumber (Text.trim text) n := isNumber_iff.mpr hsome
      refine iff_of_false ?_ ?_
      · cases oneBased with
        | false => exact fun h => nomatch h
        | true => cases n <;> exact fun h => nomatch h
      · rintro ⟨rfl, -, hnot⟩
        exact hnot n hnumber

end Selector

/-! ## Columns -/

theorem find?_finRange_eq_some {n : Nat} {p : Fin n → Bool} {j : Fin n}
    (h : (List.finRange n).find? p = some j) : p j = true ∧ ∀ i < j, p i = false := by
  obtain ⟨hj, k, hk, rfl, hbefore⟩ := List.find?_eq_some_iff_getElem.mp h
  refine ⟨hj, fun i hi => ?_⟩
  rw [List.getElem_finRange, Fin.lt_def, Fin.val_cast] at hi
  simpa using hbefore i.val hi

namespace Table

variable {t : Table} {name : String} {i j : Fin t.width}

/-- The header of the column is equal to the name up to letter case. -/
def Resembles (t : Table) (name : String) (j : Fin t.width) : Prop :=
  List.Forall₂ Text.SameLetter (t.header j).toList name.toList

/-- The first column with the name as its header, or, where there is none, the only one whose header
is equal to the name up to letter case. -/
def Finds (t : Table) (name : String) (j : Fin t.width) : Prop :=
  (t.header j = name ∧ ∀ i < j, t.header i ≠ name) ∨
    (∀ i, t.header i ≠ name) ∧ ∀ i, t.Resembles name i ↔ i = j

theorem resembles_of_eq (h : t.header j = name) : t.Resembles name j := by
  rw [Resembles, h, List.forall₂_same]
  exact fun c _ => .inl rfl

theorem resembles_iff : Text.sameIgnoringCase (t.header j) name = true ↔ t.Resembles name j :=
  Text.sameIgnoringCase_iff

theorem Finds.unique (hi : t.Finds name i) (hj : t.Finds name j) : i = j := by
  rcases hi with ⟨hi, hfirst⟩ | ⟨hnone, honly⟩
  · rcases hj with ⟨hj, hfirst'⟩ | ⟨hnone, -⟩
    · rcases lt_trichotomy i j with hlt | heq | hlt
      · exact absurd hi (hfirst' i hlt)
      · exact heq
      · exact absurd hj (hfirst j hlt)
    · exact absurd hi (hnone i)
  · rcases hj with ⟨hj, -⟩ | ⟨-, honly'⟩
    · exact absurd hj (hnone j)
    · exact (honly' i).mp ((honly i).mpr rfl)

/-- No header equals the name, but several do up to letter case. -/
def IsAmbiguous (t : Table) (name : String) : Prop :=
  (∀ i, t.header i ≠ name) ∧ ∃ i j, i ≠ j ∧ t.Resembles name i ∧ t.Resembles name j

theorem Finds.resembles (h : t.Finds name j) : t.Resembles name j := by
  rcases h with ⟨h, -⟩ | ⟨-, honly⟩
  · exact resembles_of_eq h
  · exact (honly j).mpr rfl

theorem Finds.not_isAmbiguous (h : t.Finds name j) : ¬t.IsAmbiguous name := by
  rintro ⟨hnone, i, k, hne, hi, hk⟩
  rcases h with ⟨h, -⟩ | ⟨-, honly⟩
  · exact hnone j h
  · exact hne (((honly i).mp hi).trans ((honly k).mp hk).symm)

/-- The three outcomes of looking a name up. -/
theorem resolve_name_cases (t : Table) (name : String) :
    (∃ j, t.resolve (.name name) = .ok j ∧ t.Finds name j) ∨
      (t.resolve (.name name) = .error (.unknown name) ∧ ∀ i, ¬t.Resembles name i) ∨
      (t.resolve (.name name) = .error (.ambiguous name) ∧ t.IsAmbiguous name) := by
  cases hfind : (List.finRange t.width).find? fun j => t.header j == name with
  | some j =>
      obtain ⟨hj, hfirst⟩ := find?_finRange_eq_some hfind
      refine .inl ⟨j, ?_, .inl ⟨beq_iff_eq.mp hj, fun i hi => beq_eq_false_iff_ne.mp (hfirst i hi)⟩⟩
      rw [resolve, hfind]
  | none =>
      have hnone : ∀ i, t.header i ≠ name := fun i hi =>
        List.find?_eq_none.mp hfind i (List.mem_finRange i) (beq_iff_eq.mpr hi)
      have hmem : ∀ i, t.Resembles name i ↔
          i ∈ (List.finRange t.width).filter fun j => Text.sameIgnoringCase (t.header j) name := by
        intro i
        rw [List.mem_filter, resembles_iff, and_iff_right (List.mem_finRange i)]
      have hnodup := (List.nodup_finRange t.width).filter
        fun j => Text.sameIgnoringCase (t.header j) name
      rw [resolve, hfind]
      dsimp only
      generalize (List.finRange t.width).filter
        (fun j => Text.sameIgnoringCase (t.header j) name) = found at hmem hnodup ⊢
      match found with
      | [] => exact .inr (.inl ⟨rfl, fun i hi => absurd ((hmem i).mp hi) List.not_mem_nil⟩)
      | [j] =>
          exact .inl ⟨j, rfl, .inr ⟨hnone, fun i => (hmem i).trans List.mem_singleton⟩⟩
      | i :: j :: _ =>
          refine .inr (.inr ⟨rfl, hnone, i, j, ?_, ?_, ?_⟩)
          · exact fun h => (List.nodup_cons.mp hnodup).1 (h ▸ List.mem_cons_self)
          · exact (hmem i).mpr List.mem_cons_self
          · exact (hmem j).mpr (List.mem_cons_of_mem _ List.mem_cons_self)

/-- A name is found where there is a first equal header, or else only one that is equal up to letter
case. -/
theorem resolve_name_eq_ok_iff : t.resolve (.name name) = .ok j ↔ t.Finds name j := by
  rcases resolve_name_cases t name with ⟨i, heq, hi⟩ | ⟨heq, hi⟩ | ⟨heq, hi⟩ <;> rw [heq]
  · exact ⟨fun h => Except.ok.inj h ▸ hi, fun h => congrArg _ (hi.unique h)⟩
  · exact iff_of_false (fun h => nomatch h) fun h => hi j h.resembles
  · exact iff_of_false (fun h => nomatch h) fun h => h.not_isAmbiguous hi

theorem resolve_name_eq_error_iff {e : ColumnError} :
    t.resolve (.name name) = .error e ↔
      (e = .unknown name ∧ ∀ i, ¬t.Resembles name i) ∨
        (e = .ambiguous name ∧ t.IsAmbiguous name) := by
  rcases resolve_name_cases t name with ⟨i, heq, hi⟩ | ⟨heq, hi⟩ | ⟨heq, hi⟩ <;> rw [heq]
  · refine iff_of_false (fun h => nomatch h) ?_
    rintro (⟨-, hnot⟩ | ⟨-, hnot⟩)
    · exact hnot i hi.resembles
    · exact hi.not_isAmbiguous hnot
  · constructor
    · intro h
      exact .inl ⟨(Except.error.inj h).symm, hi⟩
    · rintro (⟨rfl, -⟩ | ⟨-, -, i, -, -, hresembles, -⟩)
      · rfl
      · exact absurd hresembles (hi i)
  · constructor
    · intro h
      exact .inr ⟨(Except.error.inj h).symm, hi⟩
    · rintro (⟨-, hnot⟩ | ⟨rfl, -⟩)
      · obtain ⟨-, i, -, -, hresembles, -⟩ := hi
        exact absurd hresembles (hnot i)
      · rfl

theorem resolve_position_eq_ok_iff {n : Nat} : t.resolve (.position n) = .ok j ↔ n = j.val := by
  rw [resolve]
  split
  · rw [Except.ok.injEq, Fin.ext_iff]
  · next h => exact iff_of_false (fun h => nomatch h) fun heq => h (heq ▸ j.isLt)

/-- What a text selects: the column at a position, or the one that a name finds. -/
inductive Selects (t : Table) (oneBased : Bool) (text : String) (j : Fin t.width) : Prop
  | position (h : Selector.IsNumber (Text.trim text) (j + if oneBased then 1 else 0))
  | name (h : Selector.IsName (Text.trim text)) (hfinds : t.Finds (Text.trim text) j)

/-- A text selects what its selector, once read, is looked up as. -/
theorem selects_iff {oneBased : Bool} {text : String} :
    t.Selects oneBased text j ↔
      ∃ selector, Selector.read oneBased text = .ok selector ∧ t.resolve selector = .ok j := by
  constructor
  · rintro (h | ⟨h, hfinds⟩)
    · exact ⟨.position j, Selector.read_eq_position_iff.mpr h, resolve_position_eq_ok_iff.mpr rfl⟩
    · exact ⟨.name _, Selector.read_eq_name_iff.mpr ⟨rfl, h⟩, resolve_name_eq_ok_iff.mpr hfinds⟩
  · rintro ⟨name | n, hread, hresolve⟩
    · obtain ⟨rfl, hname⟩ := Selector.read_eq_name_iff.mp hread
      exact .name hname (resolve_name_eq_ok_iff.mp hresolve)
    · rw [resolve_position_eq_ok_iff] at hresolve
      exact .position (hresolve ▸ Selector.read_eq_position_iff.mp hread)

end Table

end SymbolicRegression
