import Mathlib
import SymbolicRegression.Proofs.Parsing.Completeness
import SymbolicRegression.Proofs.Parsing.Soundness
import SymbolicRegression.Proofs.Parsing.Unambiguous

/-!
# The parser decides the grammar

The parser is steered by binding powers alone, and the grammar by layers alone; the two agree. Every
text that is split into tokens either has exactly one derivation, and then the parser gives the
expression of that derivation, or it has none, and then the parser fails. In both cases all tokens
count: a derivation of the first few is not enough.
-/

namespace SymbolicRegression

namespace Parser

open Grammar

/-- Reading all the tokens comes to reading an expression that leaves none. -/
theorem whole_eq_ok {stop : Token} {tokens : List Token} {e : Expr Float} :
    whole stop tokens = .ok e ↔ readExpression stop 0 tokens = .ok (e, []) := by
  cases tokens with
  | nil =>
      rw [readExpression_eq, readOperand_nil]
      constructor <;> intro h <;> cases h
  | cons t tokens =>
      rw [whole, readExpression]
      cases expression stop 0 (t :: tokens) with
      | error _ => constructor <;> intro h <;> cases h
      | ok r =>
          obtain ⟨e', rest, hrest⟩ := r
          cases rest with
          | nil => simp [plain]
          | cons u rest => simp [plain]

theorem whole_eq_ok_iff {stop : Token} {tokens : List Token} {e : Expr Float} :
    whole stop tokens = .ok e ↔
      ∃ s : SumTree, s.kinds = tokens.map Token.kind ∧ s.expr = e := by
  rw [whole_eq_ok]
  constructor
  · intro h
    obtain ⟨used, rfl, ⟨s, hkinds, hexpr⟩, -⟩ := derives_of_readExpression h
    rw [List.append_nil]
    exact ⟨s, hkinds, hexpr⟩
  · rintro ⟨s, hkinds, rfl⟩
    have h : readExpression stop 0 (tokens ++ []) = readExtension stop 0 s.expr [] :=
      readExpression_sum s (Nat.zero_le 1) hkinds.symm ends_nil
    rw [← List.append_nil tokens, h, readExtension_nil]

/-- The tokens of a text are read as an expression exactly if the grammar derives them, as the
expression of the derivation; there is at most one derivation of them; and every text has an answer:
an expression, or an error where there is no derivation. -/
theorem parse_eq_ok_iff_derivation {source : String} {tokens : List Token}
    (h : tokenize source = .ok tokens) :
    (∀ e, parse source = .ok e ↔
      ∃ s : SumTree, s.kinds = tokens.map Token.kind ∧ s.expr = e) ∧
      (∀ s s' : SumTree, s.kinds = tokens.map Token.kind → s'.kinds = tokens.map Token.kind →
        s = s') ∧
      ((∃ e, parse source = .ok e) ∨
        ∃ error, parse source = .error error ∧
          ∀ s : SumTree, s.kinds ≠ tokens.map Token.kind) := by
  have hiff : ∀ e, parse source = .ok e ↔
      ∃ s : SumTree, s.kinds = tokens.map Token.kind ∧ s.expr = e := by
    intro e
    rw [parse, h]
    exact whole_eq_ok_iff
  refine ⟨hiff, fun s s' hs hs' => SumTree.kinds_injective (hs.trans hs'.symm), ?_⟩
  cases hparse : parse source with
  | ok e => exact .inl ⟨e, rfl⟩
  | error error =>
      refine .inr ⟨error, rfl, fun s hs => ?_⟩
      have hok : parse source = .ok s.expr := (hiff s.expr).mpr ⟨s, hs, rfl⟩
      rw [hparse] at hok
      cases hok

/-- A sign binds the base of a power but not the exponent: `-x^-y*z` is `(-(x^(-y)))*z`. -/
theorem parse_signed_power :
    ∃ tokens, tokenize "-x^-y*z" = .ok tokens ∧
      parse "-x^-y*z" =
        .ok (.binary .mul (.neg (.binary .pow (.name "x") (.neg (.name "y")))) (.name "z")) ∧
      ∃ s : SumTree, s.kinds = tokens.map Token.kind := by
  have h : tokenize "-x^-y*z" = .ok [⟨.minus, 0, 1⟩, ⟨.name "x", 1, 2⟩, ⟨.caret, 2, 3⟩,
      ⟨.minus, 3, 4⟩, ⟨.name "y", 4, 5⟩, ⟨.star, 5, 6⟩, ⟨.name "z", 6, 7⟩] := by
    cbv
  have hparse : parse "-x^-y*z" =
      .ok (.binary .mul (.neg (.binary .pow (.name "x") (.neg (.name "y")))) (.name "z")) := by
    cbv
  obtain ⟨s, hkinds, -⟩ := ((parse_eq_ok_iff_derivation h).1 _).mp hparse
  exact ⟨_, h, hparse, s, hkinds⟩

end Parser

end SymbolicRegression
