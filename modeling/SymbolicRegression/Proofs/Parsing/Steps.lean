import SymbolicRegression.Expr.Parser

/-!
# What one step of the parser does

The functions of the parser carry proofs that they use tokens up; that is what bounds their
recursion, and it is in the way of every statement about what they return. Here the proofs are
dropped: `readExpression` and its companions give back plain lists of tokens, and each has one
equation for every way in which it can go on. Nothing later unfolds the parser.

`Below least` says of the tokens behind an operand that no operation at their head binds at least as
strongly as `least`, which is exactly when an expression ends there.
-/

namespace SymbolicRegression

namespace Parser

variable {α : Type} {stop : Token}

/-- A result without the proof that tokens were used up. -/
def plain {p : List Token → Prop} (r : Except ParseError (α × { rest : List Token // p rest })) :
    Except ParseError (α × List Token) :=
  match r with
  | .error e => .error e
  | .ok (a, rest) => .ok (a, rest.1)

def readExpression (stop : Token) (least : Nat) (tokens : List Token) :
    Except ParseError (Expr Float × List Token) :=
  plain (expression stop least tokens)

def readExtension (stop : Token) (least : Nat) (left : Expr Float) (tokens : List Token) :
    Except ParseError (Expr Float × List Token) :=
  plain (extend stop least left tokens)

def readOperand (stop : Token) (tokens : List Token) :
    Except ParseError (Expr Float × List Token) :=
  plain (operand stop tokens)

def readArguments (stop : Token) (tokens : List Token) :
    Except ParseError (List (Expr Float) × List Token) :=
  plain (arguments stop tokens)

def readRow (stop : Token) (tokens : List Token) :
    Except ParseError (List (Expr Float) × List Token) :=
  plain (argumentRow stop tokens)

/-- Takes a closing parenthesis. -/
def readClosing (stop : Token) (tokens : List Token) : Except ParseError (List Token) :=
  match closing stop tokens with
  | .error e => .error e
  | .ok rest => .ok rest.1

/-! ## Expressions -/

theorem readExpression_eq {least : Nat} {tokens : List Token} :
    readExpression stop least tokens =
      (readOperand stop tokens).bind fun r => readExtension stop least r.1 r.2 := by
  rw [readExpression, expression, readOperand]
  cases operand stop tokens with
  | error e => rfl
  | ok r =>
      simp only [plain, Except.bind, readExtension]
      cases extend stop least r.1 r.2.1 <;> rfl

theorem readExtension_nil {least : Nat} {left : Expr Float} :
    readExtension stop least left [] = .ok (left, []) := by
  rw [readExtension, extend]
  rfl

/-- No operation at the head of the tokens binds at least as strongly as `least`. -/
def Below (least : Nat) (tokens : List Token) : Prop :=
  ∀ t rest op, tokens = t :: rest → operation? t.kind = some op → op.bindingPower.1 < least

theorem Below.mono {least least' : Nat} {tokens : List Token} (h : Below least tokens)
    (hle : least ≤ least') : Below least' tokens :=
  fun t rest op ht hop => Nat.lt_of_lt_of_le (h t rest op ht hop) hle

theorem below_nil {least : Nat} : Below least [] := by
  intro t rest op h
  cases h

theorem below_cons {least : Nat} {t : Token} {rest : List Token} :
    Below least (t :: rest) ↔ ∀ op, operation? t.kind = some op → op.bindingPower.1 < least := by
  constructor
  · exact fun h op hop => h t rest op rfl hop
  · intro h t' rest' op ht hop
    obtain ⟨rfl, -⟩ := List.cons.inj ht
    exact h op hop

theorem readExtension_of_below {least : Nat} {left : Expr Float} {tokens : List Token}
    (h : Below least tokens) : readExtension stop least left tokens = .ok (left, tokens) := by
  cases tokens with
  | nil => exact readExtension_nil
  | cons t rest =>
      rw [readExtension, extend]
      cases hop : operation? t.kind with
      | none => rfl
      | some op =>
          simp only [if_pos (below_cons.mp h op hop)]
          rfl

theorem readExtension_cons {least : Nat} {left : Expr Float} {t : Token} {rest : List Token}
    {op : BinaryOp} (hop : operation? t.kind = some op) (hle : least ≤ op.bindingPower.1) :
    readExtension stop least left (t :: rest) =
      (readExpression stop op.bindingPower.2 rest).bind fun r =>
        readExtension stop least (.binary op left r.1) r.2 := by
  rw [readExtension, extend]
  simp only [hop, if_neg (Nat.not_lt.mpr hle), readExpression]
  cases expression stop op.bindingPower.2 rest with
  | error e => rfl
  | ok r =>
      simp only [plain, Except.bind, readExtension]
      cases extend stop least (.binary op left r.1) r.2.1 <;> rfl

/-! ## Operands -/

theorem readOperand_nil :
    readOperand stop [] = .error (unexpected stop "an expression" []) := by
  rw [readOperand, operand]
  rfl

theorem readOperand_number {t : Token} {rest : List Token} {value : Float}
    (h : t.kind = .number value) :
    readOperand stop (t :: rest) = .ok (.number value, rest) := by
  rw [readOperand, operand]
  simp only [h, plain]

theorem readOperand_minus {t : Token} {rest : List Token} (h : t.kind = .minus) :
    readOperand stop (t :: rest) =
      (readExpression stop signPower rest).bind fun r => .ok (.neg r.1, r.2) := by
  rw [readOperand, operand]
  simp only [h, readExpression]
  cases expression stop signPower rest <;> rfl

theorem readOperand_plus {t : Token} {rest : List Token} (h : t.kind = .plus) :
    readOperand stop (t :: rest) = readExpression stop signPower rest := by
  rw [readOperand, operand]
  simp only [h, readExpression]
  cases expression stop signPower rest <;> rfl

theorem readOperand_parens {t : Token} {rest : List Token} (h : t.kind = .leftParen) :
    readOperand stop (t :: rest) =
      (readExpression stop 0 rest).bind fun r =>
        (readClosing stop r.2).bind fun rest' => .ok (r.1, rest') := by
  rw [readOperand, operand]
  simp only [h, readExpression, readClosing]
  cases expression stop 0 rest with
  | error e => rfl
  | ok r =>
      simp only [plain, Except.bind]
      cases closing stop r.2.1 <;> rfl

theorem readOperand_name {t : Token} {rest : List Token} {name : String}
    (h : t.kind = .name name) (hrest : ∀ u rest', rest = u :: rest' → u.kind ≠ .leftParen) :
    readOperand stop (t :: rest) = .ok (.name name, rest) := by
  rw [readOperand, operand]
  cases rest with
  | nil => simp only [h, plain]
  | cons u rest' =>
      simp only [h]
      split
      · next hu => exact absurd hu (hrest u rest' rfl)
      · rfl

theorem readOperand_call {t u : Token} {rest : List Token} {name : String}
    (h : t.kind = .name name) (hu : u.kind = .leftParen) :
    readOperand stop (t :: u :: rest) =
      (readArguments stop rest).bind fun r => .ok (.call name r.1, r.2) := by
  rw [readOperand, operand]
  simp only [h, hu, readArguments]
  cases arguments stop rest <;> rfl

/-- Does an operand begin with the token? -/
def startsOperand : TokenKind → Bool
  | .number _ => true
  | .name _ => true
  | .leftParen => true
  | .plus => true
  | .minus => true
  | _ => false

theorem readOperand_other {t : Token} {rest : List Token} (h : startsOperand t.kind = false) :
    readOperand stop (t :: rest) = .error (unexpected stop "an expression" (t :: rest)) := by
  rw [readOperand, operand]
  cases hk : t.kind <;> simp only [hk, startsOperand, Bool.true_eq_false] at h ⊢ <;> rfl

/-! ## Parentheses and arguments -/

theorem readClosing_paren {t : Token} {rest : List Token} (h : t.kind = .rightParen) :
    readClosing stop (t :: rest) = .ok rest := by
  rw [readClosing, closing]
  simp only [h]

theorem readClosing_eq_ok {tokens rest : List Token} (h : readClosing stop tokens = .ok rest) :
    ∃ t, tokens = t :: rest ∧ t.kind = .rightParen := by
  cases tokens with
  | nil => cases h
  | cons t rest' =>
      by_cases ht : t.kind = .rightParen
      · rw [readClosing_paren ht] at h
        cases h
        exact ⟨t, rfl, ht⟩
      · rw [readClosing, closing] at h
        split at h
        · cases h
        · next hc =>
            split at hc
            · next hk => exact absurd hk ht
            · cases hc

theorem readArguments_paren {t : Token} {rest : List Token} (h : t.kind = .rightParen) :
    readArguments stop (t :: rest) = .ok ([], rest) := by
  rw [readArguments, arguments]
  simp only [h, plain]

theorem readArguments_row {tokens : List Token}
    (h : ∀ t rest, tokens = t :: rest → t.kind ≠ .rightParen) :
    readArguments stop tokens = readRow stop tokens := by
  rw [readArguments, arguments.eq_def, readRow]
  cases tokens with
  | nil => rfl
  | cons t rest =>
      simp only
      split
      · next ht => exact absurd ht (h t rest rfl)
      · rfl

theorem readRow_error {tokens : List Token} {e : ParseError}
    (h : readExpression stop 0 tokens = .error e) : readRow stop tokens = .error e := by
  rw [readExpression] at h
  rw [readRow, argumentRow]
  cases hr : expression stop 0 tokens with
  | error e' =>
      rw [hr] at h
      cases h
      rfl
  | ok r => rw [hr] at h; cases h

/-- After a comma there are more arguments. -/
theorem readRow_comma {tokens rest : List Token} {first : Expr Float} {t : Token}
    (h : readExpression stop 0 tokens = .ok (first, t :: rest)) (ht : t.kind = .comma) :
    readRow stop tokens =
      (readRow stop rest).bind fun r => .ok (first :: r.1, r.2) := by
  rw [readExpression] at h
  rw [readRow, argumentRow]
  cases hr : expression stop 0 tokens with
  | error e' => rw [hr] at h; cases h
  | ok r =>
      obtain ⟨first', rest', hrest⟩ := r
      rw [hr] at h
      cases h
      simp only [ht, readRow]
      cases argumentRow stop rest <;> rfl

/-- Without a comma the row has to be closed. -/
theorem readRow_last {tokens rest : List Token} {first : Expr Float}
    (h : readExpression stop 0 tokens = .ok (first, rest))
    (hrest : ∀ t rest', rest = t :: rest' → t.kind ≠ .comma) :
    readRow stop tokens =
      (readClosing stop rest).bind fun rest' => .ok ([first], rest') := by
  rw [readExpression] at h
  rw [readRow, argumentRow]
  cases hr : expression stop 0 tokens with
  | error e' => rw [hr] at h; cases h
  | ok r =>
      obtain ⟨first', rest', hlt⟩ := r
      rw [hr] at h
      cases h
      cases rest' with
      | nil => rfl
      | cons t rest' =>
          simp only
          split
          · next ht => exact absurd ht (hrest t rest' rfl)
          · rw [readClosing]
            cases closing stop (t :: rest') <;> rfl

end Parser

end SymbolicRegression
