import SymbolicRegression.Program.Compile
import SymbolicRegression.Proofs.Results

/-!
# What compiles

Compilation fails for two reasons only: a name that stands for nothing, and a call with the wrong
number of arguments. The slots have no part in it. So an expression in which every name is resolved
has a program, whatever has been compiled before it; and whatever fails, fails with one of these
reasons.
-/

namespace SymbolicRegression

namespace Program

namespace Scope

mutual

/-- Every name of the expression stands for something, and every call has as many arguments as its
function takes. -/
def Resolves (scope : Scope) : Expr Float → Prop
  | .number _ => True
  | .name name => ∃ i, scope.param? name = some i
  | .neg e => Resolves scope e
  | .binary _ l r => Resolves scope l ∧ Resolves scope r
  | .call name arguments =>
    (∃ apply, scope.function? name = some (apply, arguments.length)) ∧ ResolvesAll scope arguments

def ResolvesAll (scope : Scope) : List (Expr Float) → Prop
  | [] => True
  | e :: es => Resolves scope e ∧ ResolvesAll scope es

end

end Scope

variable {scope : Scope}

mutual

theorem exists_compileOnto :
    ∀ (e : Expr Float), scope.Resolves e → ∀ d, ∃ r, compileOnto scope e d = .ok r
  | .number value, _, d => ⟨_, by rw [compileOnto]⟩
  | .name name, h, d => by
      obtain ⟨i, hi⟩ := h
      exact ⟨(.param i, d), by rw [compileOnto, hi]⟩
  | .neg e, h, d => by
      obtain ⟨⟨a, d₁⟩, he⟩ := exists_compileOnto e h d
      exact ⟨d₁.emit .negate [a], by rw [compileOnto, he]; rfl⟩
  | .binary op l r, h, d => by
      obtain ⟨⟨a, d₁⟩, hl⟩ := exists_compileOnto l h.1 d
      obtain ⟨⟨b, d₂⟩, hr⟩ := exists_compileOnto r h.2 d₁
      refine ⟨d₂.emit (.binary op) [a, b], ?_⟩
      simp only [compileOnto, hl, hr, bind, Except.bind]
      rfl
  | .call name arguments, h, d => by
      obtain ⟨⟨apply, hfunction⟩, hall⟩ := h
      obtain ⟨⟨operands, d₁⟩, hes⟩ := exists_compileAllOnto arguments hall d
      refine ⟨d₁.emit (.function apply) operands, ?_⟩
      simp only [compileOnto, hfunction, hes, bind, Except.bind]
      rw [if_neg (fun hne => hne rfl)]
      rfl

theorem exists_compileAllOnto :
    ∀ (es : List (Expr Float)), scope.ResolvesAll es → ∀ d, ∃ r, compileAllOnto scope es d = .ok r
  | [], _, d => ⟨_, by rw [compileAllOnto]⟩
  | e :: es, h, d => by
      obtain ⟨⟨operand, d₁⟩, he⟩ := exists_compileOnto e h.1 d
      obtain ⟨⟨operands, d₂⟩, hes⟩ := exists_compileAllOnto es h.2 d₁
      refine ⟨(operand :: operands, d₂), ?_⟩
      simp only [compileAllOnto, he, hes, bind, Except.bind]
      rfl

end

/-- An expression has a program if all its names are resolved among its own constants and the names
of the registry. -/
theorem exists_compile {e : Expr Float} {registry : Registry}
    (h : Scope.Resolves ⟨registry, e.constantNames, registry.variableNames⟩ e) :
    ∃ p, e.compile registry = .ok p := by
  obtain ⟨⟨result, d⟩, hr⟩ := exists_compileOnto e h {}
  simp only [Expr.compile, hr, bind, Except.bind]
  exact ⟨_, rfl⟩

mutual

/-- Compiling goes over every name, so whatever compiles is resolved. -/
theorem resolves_of_compileOnto :
    ∀ {e : Expr Float} {d : Draft} {r : Operand × Draft}, compileOnto scope e d = .ok r →
      scope.Resolves e
  | .number _, _, _, _ => trivial
  | .name name, d, r, h => by
      rw [compileOnto] at h
      split at h
      · next i hi => exact ⟨i, hi⟩
      · cases h
  | .neg e, d, r, h => by
      rw [compileOnto] at h
      obtain ⟨r', he, -⟩ := bind_eq_ok h
      rw [Scope.Resolves]
      exact resolves_of_compileOnto he
  | .binary op left right, d, r, h => by
      rw [compileOnto] at h
      obtain ⟨r', hl, h⟩ := bind_eq_ok h
      obtain ⟨r'', hr, -⟩ := bind_eq_ok h
      rw [Scope.Resolves]
      exact ⟨resolves_of_compileOnto hl, resolves_of_compileOnto hr⟩
  | .call name arguments, d, r, h => by
      rw [compileOnto] at h
      split at h
      · cases h
      · next apply expected hfunction =>
          split at h
          · cases h
          · next hexpected =>
              obtain ⟨r', hes, -⟩ := bind_eq_ok h
              rw [Decidable.not_not.mp hexpected] at hfunction
              rw [Scope.Resolves]
              exact ⟨⟨apply, hfunction⟩, resolvesAll_of_compileAllOnto hes⟩

theorem resolvesAll_of_compileAllOnto :
    ∀ {es : List (Expr Float)} {d : Draft} {r : List Operand × Draft},
      compileAllOnto scope es d = .ok r → scope.ResolvesAll es
  | [], _, _, _ => trivial
  | e :: es, d, r, h => by
      rw [compileAllOnto] at h
      obtain ⟨r', he, h⟩ := bind_eq_ok h
      obtain ⟨r'', hes, -⟩ := bind_eq_ok h
      exact ⟨resolves_of_compileOnto he, resolvesAll_of_compileAllOnto hes⟩

end

/-! ## What does not compile -/

/-- A name stands for nothing, or a call has the wrong number of arguments. -/
def IsUnresolved : CompileError → Prop
  | .unknownName _ => True
  | .unknownFunction _ => True
  | .arity _ _ _ => True
  | .parse _ => False
  | .invalidPreorder => False

mutual

theorem isUnresolved_of_compileOnto :
    ∀ (e : Expr Float) {d : Draft} {error : CompileError},
      compileOnto scope e d = .error error → IsUnresolved error
  | .number value, d, error, h => by
      rw [compileOnto] at h
      cases h
  | .name name, d, error, h => by
      rw [compileOnto] at h
      split at h
      · cases h
      · cases h; trivial
  | .neg e, d, error, h => by
      rw [compileOnto] at h
      rcases bind_eq_error h with he | ⟨_, _, hrest⟩
      · exact isUnresolved_of_compileOnto e he
      · cases hrest
  | .binary op l r, d, error, h => by
      rw [compileOnto] at h
      rcases bind_eq_error h with hl | ⟨_, _, hrest⟩
      · exact isUnresolved_of_compileOnto l hl
      · rcases bind_eq_error hrest with hr | ⟨_, _, hrest⟩
        · exact isUnresolved_of_compileOnto r hr
        · cases hrest
  | .call name arguments, d, error, h => by
      rw [compileOnto] at h
      split at h
      · cases h; trivial
      · split at h
        · cases h; trivial
        · rcases bind_eq_error h with hall | ⟨_, _, hrest⟩
          · exact isUnresolved_of_compileAllOnto arguments hall
          · cases hrest

theorem isUnresolved_of_compileAllOnto :
    ∀ (es : List (Expr Float)) {d : Draft} {error : CompileError},
      compileAllOnto scope es d = .error error → IsUnresolved error
  | [], d, error, h => by
      rw [compileAllOnto] at h
      cases h
  | e :: es, d, error, h => by
      rw [compileAllOnto] at h
      rcases bind_eq_error h with he | ⟨_, _, hrest⟩
      · exact isUnresolved_of_compileOnto e he
      · rcases bind_eq_error hrest with hes | ⟨_, _, hrest⟩
        · exact isUnresolved_of_compileAllOnto es hes
        · cases hrest

end

/-- A text that has no program is no expression, or not all its names are resolved. -/
theorem error_of_compile {text : String} {registry : Registry} {error : CompileError}
    (h : compile text registry = .error error) :
    (∃ e, error = .parse e) ∨ IsUnresolved error := by
  rw [compile] at h
  split at h
  · next e _ =>
      cases h
      exact .inl ⟨e, rfl⟩
  · rw [Expr.compile] at h
    rcases bind_eq_error h with he | ⟨_, _, hrest⟩
    · exact .inr (isUnresolved_of_compileOnto _ he)
    · cases hrest

end Program

end SymbolicRegression
