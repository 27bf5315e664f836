import Mathlib.Computability.RegularExpressions
import SymbolicRegression.Proofs.Parsing.Spellings

/-!
# The patterns of tokens

What a token may look like is said by a regular expression for each kind, and a lexer by maximal
munch is one that takes, of all words that match any of them, the longest. The expressions know
nothing of how a lexer goes about it. A number in particular is a whole part, a fraction and an
exponent that may or may not be there, and the lexer has to find out from the left how far they go.

This works since none of the three parts can start where the one in front of it could still go on:
a point and the mark of an exponent are no digits. So a part that is cut off early leaves nothing
for those behind it, and of the words that match, the longest is the one whose parts are all as long
as they can be.
-/

namespace SymbolicRegression

namespace Pattern

open RegularExpression

/-- One of these characters. -/
def oneOf (cs : List Char) : RegularExpression Char :=
  (cs.map char).sum

/-- The characters from the first to the last. -/
def range (first last : Char) : List Char :=
  (List.range' first.toNat (last.toNat + 1 - first.toNat)).map Char.ofNat

/-- The text itself. -/
def literal (cs : List Char) : RegularExpression Char :=
  (cs.map char).prod

def optional (p : RegularExpression Char) : RegularExpression Char :=
  1 + p

def oneOrMore (p : RegularExpression Char) : RegularExpression Char :=
  p * star p

def digit : RegularExpression Char :=
  oneOf (range '0' '9')

def letter : RegularExpression Char :=
  oneOf (range 'A' 'Z') + oneOf (range 'a' 'z') + oneOf ['_']

/-- A point, with or without digits behind it. -/
def fraction : RegularExpression Char :=
  literal ['.'] * star digit

def exponent : RegularExpression Char :=
  oneOf ['e', 'E'] * (optional (oneOf ['+', '-']) * oneOrMore digit)

/-- A number has a digit in front of the point, or else one behind it. -/
def number : RegularExpression Char :=
  oneOrMore digit * (optional fraction * optional exponent) +
    literal ['.'] * (oneOrMore digit * optional exponent)

def name : RegularExpression Char :=
  letter * star (letter + digit)

end Pattern

/-- What the tokens of a kind look like. No word is the end of input. -/
def TokenKind.pattern : TokenKind → RegularExpression Char
  | number _ => Pattern.number
  | name _ => Pattern.name
  | leftParen => Pattern.literal ['(']
  | rightParen => Pattern.literal [')']
  | comma => Pattern.literal [',']
  | plus => Pattern.literal ['+']
  | minus => Pattern.literal ['-']
  | doubleStar => Pattern.literal ['*', '*']
  | star => Pattern.literal ['*']
  | slash => Pattern.literal ['/']
  | caret => Pattern.literal ['^']
  | endOfInput => 0

/-- A word that the pattern of a kind matches. -/
def TokenKind.Matches (kind : TokenKind) (word : List Char) : Prop :=
  word ∈ kind.pattern.matches'

/-! ## What the patterns match -/

namespace Pattern

open RegularExpression

variable {p q : RegularExpression Char} {P Q : Char → Prop} {w : List Char}

theorem mem_add : w ∈ (p + q).matches' ↔ w ∈ p.matches' ∨ w ∈ q.matches' :=
  Iff.rfl

theorem mem_mul : w ∈ (p * q).matches' ↔ ∃ a ∈ p.matches', ∃ b ∈ q.matches', a ++ b = w :=
  Language.mem_mul

theorem mem_optional : w ∈ (optional p).matches' ↔ w = [] ∨ w ∈ p.matches' :=
  Iff.rfl

theorem mem_literal {cs : List Char} : w ∈ (literal cs).matches' ↔ w = cs := by
  rw [literal]
  induction cs generalizing w with
  | nil => exact Iff.rfl
  | cons c cs ih =>
      rw [List.map_cons, List.prod_cons, mem_mul]
      constructor
      · rintro ⟨a, rfl, b, hb, rfl⟩
        rw [ih.mp hb]
        rfl
      · rintro rfl
        exact ⟨[c], rfl, cs, ih.mpr rfl, rfl⟩

/-- The pattern matches the single characters with a property and nothing else. -/
def IsClass (p : RegularExpression Char) (P : Char → Prop) : Prop :=
  ∀ w, w ∈ p.matches' ↔ ∃ c, P c ∧ w = [c]

theorem isClass_oneOf (cs : List Char) : IsClass (oneOf cs) (· ∈ cs) := by
  rw [oneOf]
  induction cs with
  | nil => exact fun w => ⟨False.elim, fun ⟨c, hc, _⟩ => absurd hc List.not_mem_nil⟩
  | cons c cs ih =>
      intro w
      rw [List.map_cons, List.sum_cons, mem_add, ih w]
      constructor
      · rintro (rfl | ⟨d, hd, rfl⟩)
        · exact ⟨c, List.mem_cons_self, rfl⟩
        · exact ⟨d, List.mem_cons_of_mem c hd, rfl⟩
      · rintro ⟨d, hd, rfl⟩
        rcases List.mem_cons.mp hd with rfl | hd
        · exact .inl rfl
        · exact .inr ⟨d, hd, rfl⟩

theorem IsClass.add (hp : IsClass p P) (hq : IsClass q Q) :
    IsClass (p + q) fun c => P c ∨ Q c := by
  intro w
  rw [mem_add, hp w, hq w]
  constructor
  · rintro (⟨c, hc, rfl⟩ | ⟨c, hc, rfl⟩)
    · exact ⟨c, .inl hc, rfl⟩
    · exact ⟨c, .inr hc, rfl⟩
  · rintro ⟨c, hc | hc, rfl⟩
    · exact .inl ⟨c, hc, rfl⟩
    · exact .inr ⟨c, hc, rfl⟩

theorem IsClass.mem_star (hp : IsClass p P) : w ∈ (star p).matches' ↔ ∀ c ∈ w, P c := by
  rw [matches'_star, Language.mem_kstar]
  constructor
  · rintro ⟨ws, rfl, hws⟩ c hc
    obtain ⟨v, hv, hc⟩ := List.mem_flatten.mp hc
    obtain ⟨d, hd, rfl⟩ := (hp v).mp (hws v hv)
    rwa [List.mem_singleton.mp hc]
  · intro hw
    refine ⟨w.map fun c => [c], by rw [← List.flatMap_def, List.flatMap_singleton'], ?_⟩
    intro v hv
    obtain ⟨c, hc, rfl⟩ := List.mem_map.mp hv
    exact (hp [c]).mpr ⟨c, hw c hc, rfl⟩

theorem IsClass.mem_mul (hp : IsClass p P) :
    w ∈ (p * q).matches' ↔ ∃ c cs, P c ∧ cs ∈ q.matches' ∧ w = c :: cs := by
  rw [Pattern.mem_mul]
  constructor
  · rintro ⟨a, ha, b, hb, rfl⟩
    obtain ⟨c, hc, rfl⟩ := (hp a).mp ha
    exact ⟨c, b, hc, hb, rfl⟩
  · rintro ⟨c, cs, hc, hcs, rfl⟩
    exact ⟨[c], (hp [c]).mpr ⟨c, hc, rfl⟩, cs, hcs, rfl⟩

theorem IsClass.mem_oneOrMore (hp : IsClass p P) :
    w ∈ (oneOrMore p).matches' ↔ w ≠ [] ∧ ∀ c ∈ w, P c := by
  rw [oneOrMore, hp.mem_mul]
  constructor
  · rintro ⟨c, cs, hc, hcs, rfl⟩
    exact ⟨List.cons_ne_nil c cs, List.forall_mem_cons.mpr ⟨hc, hp.mem_star.mp hcs⟩⟩
  · rintro ⟨hne, hw⟩
    obtain ⟨c, cs, rfl⟩ := List.exists_cons_of_ne_nil hne
    obtain ⟨hc, hcs⟩ := List.forall_mem_cons.mp hw
    exact ⟨c, cs, hc, hp.mem_star.mpr hcs, rfl⟩

/-! ## Digits and letters -/

/-- Below the surrogates, the numbers between two characters are those of the characters between. -/
theorem mem_range {first last c : Char} (h : last.toNat < 0xD800) :
    c ∈ range first last ↔ first ≤ c ∧ c ≤ last := by
  have hsize : ∀ {a b : Char}, a ≤ b ↔ a.toNat ≤ b.toNat := Iff.rfl
  rw [range, List.mem_map, hsize, hsize]
  constructor
  · rintro ⟨n, hn, rfl⟩
    have hn := List.mem_range'_1.mp hn
    have hvalid : n.isValidChar := .inl (by omega)
    have htoNat : (Char.ofNat n).toNat = n := by
      rw [Char.ofNat, dif_pos hvalid]
      rfl
    rw [htoNat]
    omega
  · rintro ⟨hfirst, hlast⟩
    exact ⟨c.toNat, List.mem_range'_1.mpr ⟨hfirst, by omega⟩, c.ofNat_toNat⟩

theorem isClass_digit : IsClass digit fun c => c.isDigit = true := by
  intro w
  rw [digit, isClass_oneOf]
  refine exists_congr fun c => and_congr_left fun _ => ?_
  dsimp only
  rw [mem_range (by decide), Char.isDigit, Bool.and_eq_true, decide_eq_true_iff,
    decide_eq_true_iff]
  exact Iff.rfl

theorem isClass_letter : IsClass letter fun c => Lexer.startsName c = true := by
  intro w
  rw [letter, ((isClass_oneOf _).add (isClass_oneOf _)).add (isClass_oneOf _) w]
  refine exists_congr fun c => and_congr_left fun _ => ?_
  dsimp only
  rw [mem_range (by decide), mem_range (by decide), List.mem_singleton]
  simp only [Lexer.startsName, Bool.or_eq_true, Bool.and_eq_true, decide_eq_true_iff, beq_iff_eq]

theorem mem_name : w ∈ name.matches' ↔
    ∃ c cs, w = c :: cs ∧ Lexer.startsName c = true ∧ ∀ d ∈ cs, Lexer.continuesName d = true := by
  have hcontinues : IsClass (letter + digit) fun c => Lexer.continuesName c = true := by
    intro w
    rw [isClass_letter.add isClass_digit w]
    simp only [Lexer.continuesName, Bool.or_eq_true]
  rw [name, isClass_letter.mem_mul]
  refine exists_congr fun c => exists_congr fun cs => ?_
  rw [hcontinues.mem_star]
  tauto

/-! ## The parts of numbers -/

theorem mem_fraction : w ∈ fraction.matches' ↔ ∃ ds, w = '.' :: ds ∧ ∀ d ∈ ds, d.isDigit = true := by
  rw [fraction, mem_mul]
  constructor
  · rintro ⟨a, ha, ds, hds, rfl⟩
    rw [mem_literal.mp ha]
    exact ⟨ds, rfl, isClass_digit.mem_star.mp hds⟩
  · rintro ⟨ds, rfl, hds⟩
    exact ⟨['.'], mem_literal.mpr rfl, ds, isClass_digit.mem_star.mpr hds, rfl⟩

theorem mem_sign : w ∈ (optional (oneOf ['+', '-'])).matches' ↔ w = [] ∨ w = ['+'] ∨ w = ['-'] := by
  rw [mem_optional, isClass_oneOf]
  simp

theorem mem_exponent : w ∈ exponent.matches' ↔
    ∃ e sign ds, w = e :: (sign ++ ds) ∧ (e == 'e' || e == 'E') = true ∧
      (sign = [] ∨ sign = ['+'] ∨ sign = ['-']) ∧ ds ≠ [] ∧ ∀ d ∈ ds, d.isDigit = true := by
  rw [exponent, (isClass_oneOf _).mem_mul]
  constructor
  · rintro ⟨e, cs, he, hcs, rfl⟩
    obtain ⟨sign, hsign, ds, hds, rfl⟩ := mem_mul.mp hcs
    exact ⟨e, sign, ds, rfl, by simpa using he, mem_sign.mp hsign,
      isClass_digit.mem_oneOrMore.mp hds⟩
  · rintro ⟨e, sign, ds, rfl, he, hsign, hds⟩
    exact ⟨e, sign ++ ds, by simpa using he,
      mem_mul.mpr ⟨sign, mem_sign.mpr hsign, ds, isClass_digit.mem_oneOrMore.mpr hds, rfl⟩, rfl⟩

/-- Where a number has no digits in front, there is a point with a digit behind it. -/
theorem mem_number : w ∈ number.matches' ↔
    ∃ whole point power, w = whole ++ (point ++ power) ∧ (∀ d ∈ whole, d.isDigit = true) ∧
      point ∈ (optional fraction).matches' ∧ power ∈ (optional exponent).matches' ∧
      (whole = [] → 2 ≤ point.length) := by
  have hdigits : ∀ {ds : List Char}, ds ∈ (oneOrMore digit).matches' ↔
      ds ≠ [] ∧ ∀ d ∈ ds, d.isDigit = true := isClass_digit.mem_oneOrMore
  rw [number, mem_add, mem_mul, mem_mul]
  constructor
  · rintro (⟨whole, hwhole, b, hb, rfl⟩ | ⟨a, ha, b, hb, rfl⟩)
    · obtain ⟨point, hpoint, power, hpower, rfl⟩ := mem_mul.mp hb
      obtain ⟨hne, hall⟩ := hdigits.mp hwhole
      exact ⟨whole, point, power, rfl, hall, hpoint, hpower, fun h => absurd h hne⟩
    · obtain ⟨ds, hds, power, hpower, rfl⟩ := mem_mul.mp hb
      obtain ⟨hne, hall⟩ := hdigits.mp hds
      rw [mem_literal.mp ha]
      refine ⟨[], '.' :: ds, power, rfl, List.forall_mem_nil _,
        mem_optional.mpr (.inr (mem_fraction.mpr ⟨ds, rfl, hall⟩)), hpower, fun _ => ?_⟩
      have hpos := List.length_pos_of_ne_nil hne
      rw [List.length_cons]
      omega
  · rintro ⟨whole, point, power, rfl, hall, hpoint, hpower, hlong⟩
    by_cases hempty : whole = []
    · subst hempty
      have hlong := hlong rfl
      rcases mem_optional.mp hpoint with rfl | hpoint
      · exact absurd hlong (by decide)
      obtain ⟨ds, rfl, hds⟩ := mem_fraction.mp hpoint
      have hne : ds ≠ [] := by
        rintro rfl
        exact absurd hlong (by decide)
      exact .inr ⟨['.'], mem_literal.mpr rfl, ds ++ power,
        mem_mul.mpr ⟨ds, hdigits.mpr ⟨hne, hds⟩, power, hpower, rfl⟩, rfl⟩
    · exact .inl ⟨whole, hdigits.mpr ⟨hempty, hall⟩, point ++ power,
        mem_mul.mpr ⟨point, hpoint, power, hpower, rfl⟩, rfl⟩

end Pattern

end SymbolicRegression
