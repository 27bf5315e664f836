import SymbolicRegression.Proofs.Generation
import SymbolicRegression.Proofs.Registries

/-!
# Generation fails only for want of something

A draw that fails names what it found nothing of: terminals for a type, or operators for it. A
choice from a list that is not empty always gives a member, so the list was empty; and for the
operators of the weighted shapes, which are looked up by their signatures, no operator had that
signature.

What is asked for depends on the type, on the policy and on a fair choice, but some questions never
come up. A constant is minted, so no table is consulted for it, and terminals are drawn only where
anything or a variable will do. `Registry.Lacks` says both, which category was empty and that the
question can come up at all. A registry with the operators of both weighted shapes and a variable
has an answer to every question that can, and so no draw from it fails.
-/

namespace SymbolicRegression

namespace Stream

/-! ## Choices -/

theorem below_lt {n : Nat} (hn : 0 < n) (s : Stream) : (s.below n).1 < n := by
  rw [below]
  generalize period = fuel
  induction fuel generalizing s with
  | zero => exact hn
  | succ fuel ih =>
      rcases hnext : s.next with ⟨word, s'⟩
      simp only [below.go, hnext]
      split
      · exact ih s'
      · have hword : word.toNat < Nat.pow 2 64 := word.toNat_lt
        exact Nat.div_lt_of_lt_mul (Nat.mul_lt_mul_of_pos_right hword hn)

/-- A number drawn between two bounds lies there; where they leave as many choices as there are
words, it is a word. -/
theorem between_mem {low high : Nat} (hheights : low ≤ high) (s : Stream) :
    low ≤ (s.between low high).1 ∧ (s.between low high).1 ≤ high := by
  have hword : s.next.1.toNat < Nat.pow 2 64 := s.next.1.toNat_lt
  rw [between]
  revert hword
  -- the number of words is large, and nothing must be computed with it
  generalize Nat.pow 2 64 = words
  generalize hspan : high - low + 1 = span
  intro hword
  by_cases hle : high ≤ low
  · rw [if_pos hle]
    exact ⟨Nat.le_refl low, hheights⟩
  rw [if_neg hle]
  by_cases hwords : span = words
  · rw [if_pos hwords]
    have hsum : low + s.next.1.toNat ≤ high := by omega
    exact ⟨Nat.le_add_right low _, hsum⟩
  · rw [if_neg hwords]
    have hbelow : (s.below span).1 < span := below_lt (by omega) s
    rcases hdrawn : s.below span with ⟨n, s'⟩
    rw [hdrawn] at hbelow
    have hn : n < span := hbelow
    have hsum : low + n ≤ high := by omega
    exact ⟨Nat.le_add_right low n, hsum⟩

/-- Only an empty list leaves no choice. -/
theorem eq_nil_of_choose?_eq_none {α : Type} {values : List α} {s : Stream}
    (h : (choose? values s).1 = none) : values = [] := by
  by_contra hne
  have hempty : ¬values.isEmpty = true := fun hempty => hne (List.isEmpty_iff.mp hempty)
  have hlt := below_lt (List.length_pos_iff.mpr hne) s
  rw [choose?] at h
  -- the draw itself must not be computed: its loop is bounded by the period of the stream
  revert h hlt
  generalize s.below values.length = drawn
  intro h hlt
  obtain ⟨i, s'⟩ := drawn
  rw [if_neg hempty] at h
  have hge : values.length ≤ i := List.getElem?_eq_none_iff.mp h
  omega

end Stream

/-! ## What can be lacking -/

/-- The signatures that the weighted shapes are built with. -/
inductive WeightedShape : List ExprType → ExprType → Prop where
  | term : WeightedShape [.const, .var] .weightedTerm
  | sum : WeightedShape [.weightedTerm, .const] .weightedSum

namespace Registry

/-- The registry is asked for something of that category and type, and has nothing. -/
def Lacks (r : Registry) : Category → ExprType → Prop
  | .terminal, type => (type = .any ∨ type = .var) ∧ r.terminalsFor type = []
  | .operator, type => type ≠ .const ∧
    (r.operatorsReturning type = [] ∨
      ∃ arguments, WeightedShape arguments type ∧
        ∀ op ∈ r.operators, ¬(op.arguments = arguments ∧ op.result = type))

/-- There are operators for both weighted shapes, and a variable. -/
structure Complete (r : Registry) : Prop where
  shapes : ∀ {arguments : List ExprType} {type : ExprType}, WeightedShape arguments type →
    ∃ op ∈ r.operators, op.arguments = arguments ∧ op.result = type
  hasVariable : ∃ t : Terminal, .named t ∈ r.terminals ∧ t.kind = .var

variable {r : Registry}

theorem mem_terminalsFor {type : ExprType} {spec : TerminalSpec} (hspec : spec ∈ r.terminals)
    (htype : spec.type.isSubtype type = true) : spec ∈ r.terminalsFor type := by
  exact List.mem_flatMap.mpr ⟨spec.type, List.mem_filter.mpr ⟨ExprType.mem_all _, htype⟩,
    List.mem_filter.mpr ⟨hspec, beq_self_eq_true _⟩⟩

/-- A look-up by signature that fails has passed every operator. -/
theorem lacks_shape {arguments : List ExprType} {type : ExprType}
    (hshape : WeightedShape arguments type)
    (h : r.operatorWithSignature? arguments type = none) : r.Lacks .operator type := by
  refine ⟨by cases hshape <;> decide, .inr ⟨arguments, hshape, ?_⟩⟩
  rintro op hop ⟨harguments, hresult⟩
  have hmem : op ∈ r.operatorsOf type :=
    List.mem_filter.mpr ⟨hop, beq_iff_eq.mpr hresult⟩
  exact List.find?_eq_none.mp h op hmem (beq_iff_eq.mpr harguments)

/-- Every type but that of constants is served by the operator of a weighted shape. -/
theorem Complete.exists_operator (h : r.Complete) {type : ExprType} (htype : type ≠ .const) :
    ∃ op, op ∈ r.operatorsReturning type := by
  obtain ⟨product, hproduct, -, hterm⟩ := h.shapes .term
  obtain ⟨sum, hsum, -, hresult⟩ := h.shapes .sum
  cases type with
  | const => exact absurd rfl htype
  | weightedTerm => exact ⟨product, mem_operatorsReturning hproduct (by rw [hterm]; rfl)⟩
  | any => exact ⟨sum, mem_operatorsReturning hsum (by rw [hresult]; rfl)⟩
  | var => exact ⟨sum, mem_operatorsReturning hsum (by rw [hresult]; rfl)⟩
  | weightedSum => exact ⟨sum, mem_operatorsReturning hsum (by rw [hresult]; rfl)⟩

theorem Complete.exists_terminal (h : r.Complete) {type : ExprType}
    (htype : type = .any ∨ type = .var) : ∃ spec, spec ∈ r.terminalsFor type := by
  obtain ⟨t, ht, hkind⟩ := h.hasVariable
  refine ⟨.named t, mem_terminalsFor ht ?_⟩
  rw [TerminalSpec.type, Terminal.type, hkind]
  rcases htype with rfl | rfl
  · rfl
  · rfl

/-- A complete registry lacks nothing that it can be asked for. -/
theorem Complete.not_lacks (h : r.Complete) {category : Category} {type : ExprType} :
    ¬r.Lacks category type := by
  cases category with
  | terminal =>
      rintro ⟨htype, hnone⟩
      obtain ⟨spec, hspec⟩ := h.exists_terminal htype
      rw [hnone] at hspec
      cases hspec
  | operator =>
      rintro ⟨htype, hnone | ⟨arguments, hshape, hnone⟩⟩
      · obtain ⟨op, hop⟩ := h.exists_operator htype
        rw [hnone] at hop
        cases hop
      · obtain ⟨op, hop, hsignature⟩ := h.shapes hshape
        exact hnone op hop hsignature

end Registry

/-! ## Errors of draws -/

namespace Draw

variable {α β : Type} {Q : GenerationError → Prop}

/-- Whatever error the draw ends with has the property. -/
def Throws (Q : GenerationError → Prop) (x : Draw α) : Prop :=
  ∀ s error s', x s = some (.error error, s') → Q error

theorem throws_pure {a : α} : Throws Q (pure a) := by
  intro s error s' hrun
  cases hrun

theorem throws_throw {error : GenerationError} (h : Q error) : Throws Q (throw error : Draw α) := by
  intro s error' s' hrun
  cases hrun
  exact h

theorem throws_endless : Throws Q (endless : Draw α) := by
  intro s error s' hrun
  cases hrun

theorem throws_supplied {f : Supply → α × Supply} : Throws Q (supplied f) := by
  intro s error s' hrun
  cases hrun

theorem Throws.bind {x : Draw α} {f : α → Draw β} (hx : Throws Q x) (hf : ∀ a, Throws Q (f a)) :
    Throws Q (x >>= f) := by
  intro s error s' hrun
  rw [bind_apply] at hrun
  obtain ⟨⟨outcome, s₁⟩, hxs, hrest⟩ := Option.bind_eq_some_iff.mp hrun
  cases outcome with
  | error first =>
      cases hrest
      exact hx s error s₁ hxs
  | ok a => exact hf a s₁ error s' hrest

/-- A draw from the stream does not fail, and what follows may rely on what it was. -/
theorem throws_random_bind {f : Stream → α × Stream} {g : α → Draw β}
    (h : ∀ s, Throws Q (g (f s).1)) : Throws Q (random f >>= g) := by
  intro s error s' hrun
  rw [bind_apply] at hrun
  exact h s.stream _ error s' hrun

theorem Throws.mapM {f : α → Draw β} (h : ∀ a, Throws Q (f a)) :
    ∀ xs : List α, Throws Q (xs.mapM f)
  | [] => by
      rw [List.mapM_nil]
      exact throws_pure
  | x :: xs => by
      rw [List.mapM_cons]
      exact .bind (h x) fun _ => .bind (Throws.mapM h xs) fun _ => throws_pure

/-! ## Errors of generation -/

/-- The error names something that the registry lacks. -/
def Honest (r : Registry) (error : GenerationError) : Prop :=
  ∃ category type, error = .exhausted category type ∧ r.Lacks category type

variable {r : Registry}

theorem throws_freshConstant : Throws Q freshConstant :=
  throws_supplied

theorem throws_terminal {type : ExprType} (htype : type = .any ∨ type = .var) :
    Throws (Honest r) (terminal r type) := by
  rw [terminal]
  refine throws_random_bind fun s => ?_
  cases hchoice : (Stream.choose? (r.terminalsFor type) s).1 with
  | none =>
      exact throws_throw ⟨.terminal, type, rfl, htype, Stream.eq_nil_of_choose?_eq_none hchoice⟩
  | some spec => exact throws_supplied

theorem throws_operator {type : ExprType} (htype : type ≠ .const) :
    Throws (Honest r) (operator r type) := by
  rw [operator]
  refine throws_random_bind fun s => ?_
  cases hchoice : (Stream.choose? (r.operatorsReturning type) s).1 with
  | none =>
      exact throws_throw
        ⟨.operator, type, rfl, htype, .inl (Stream.eq_nil_of_choose?_eq_none hchoice)⟩
  | some op => exact throws_pure

theorem throws_shape {arguments : List ExprType} {type : ExprType}
    (hshape : WeightedShape arguments type) : Throws (Honest r) (shape r arguments type) := by
  rw [shape]
  split
  · exact throws_pure
  · next hnone => exact throws_throw ⟨.operator, type, rfl, Registry.lacks_shape hshape hnone⟩

theorem throws_weightedTerm : Throws (Honest r) (weightedTerm r) := by
  rw [weightedTerm]
  refine .bind (throws_shape .term) fun product => ?_
  refine .bind (throws_terminal (.inr rfl)) fun x => ?_
  exact .bind throws_freshConstant fun c => throws_pure

theorem throws_weightedSum : Throws (Honest r) (weightedSum r) := by
  rw [weightedSum]
  refine .bind (throws_shape .sum) fun sum => ?_
  refine .bind throws_weightedTerm fun product => ?_
  exact .bind throws_freshConstant fun c => throws_pure

theorem throws_close (type : ExprType) : Throws (Honest r) (close r type) := by
  cases type with
  | weightedSum => exact throws_weightedSum
  | weightedTerm => exact throws_weightedTerm
  | const => exact .bind throws_freshConstant fun c => throws_pure
  | any => exact .bind (throws_terminal (.inl rfl)) fun t => throws_pure
  | var => exact .bind (throws_terminal (.inr rfl)) fun t => throws_pure

/-- Whatever the policy decides, an obligation that is not filled names what the registry lacks. -/
theorem throws_fill (policy : Policy) (height : Nat) :
    ∀ (levels depth : Nat) (type : ExprType),
      Throws (Honest r) (fill r policy height levels depth type) := by
  intro levels
  induction levels with
  | zero =>
      intro depth type
      rw [fill]
      exact throws_endless
  | succ levels ih =>
      intro depth type
      rw [fill]
      refine throws_random_bind fun s => ?_
      split
      · exact throws_close type
      · split
        · exact .bind throws_freshConstant fun c => throws_pure
        · next hconst =>
            have hgrow : Throws (Honest r) (do
                let op ← operator r type
                let children ← op.arguments.mapM fun argument =>
                  fill r policy height levels (depth + 1) argument
                return Tree.node (.operator op) children) :=
              .bind (throws_operator hconst) fun op =>
                .bind (.mapM (fun argument => ih (depth + 1) argument) op.arguments) fun _ =>
                  throws_pure
            -- only for a variable is a leaf a possible outcome of the choice
            by_cases hvar : type = .var
            · rw [if_pos hvar]
              refine throws_random_bind fun s => ?_
              split
              · exact .bind (throws_terminal (.inr hvar)) fun t => throws_pure
              · exact hgrow
            · rw [if_neg hvar]
              exact hgrow

end Draw

/-- An error of generation is exhaustion, and it is honest: there are no terminals for the type that
it names, or no operators for it, or it is the type of a weighted shape and no operator has the
signature of that shape. So nothing fails where both shapes and a variable are there, whatever else
is registered, whatever root is asked for and whatever the policy decides, as long as the run
ends. -/
theorem generate_fails_honestly {r : Registry} {low high : Nat} (hheights : low ≤ high)
    (policy : Policy) (root : Option ExprType) (s : Sources) :
    (∀ error s', generate r low high policy root s = some (.error error, s') →
        ∃ category type, error = .exhausted category type ∧ r.Lacks category type) ∧
      (r.Complete → ∀ outcome s', generate r low high policy root s = some (outcome, s') →
        ∃ t, outcome = .ok t) := by
  have hthrows : Draw.Throws (Draw.Honest r) (generate r low high policy root) := by
    rintro ⟨stream, supply⟩ error s' hrun
    rw [generate_eq_fill hheights] at hrun
    exact Draw.throws_fill policy _ _ _ _ _ error s' hrun
  refine ⟨fun error s' h => hthrows s error s' h, fun hcomplete outcome s' h => ?_⟩
  cases outcome with
  | ok t => exact ⟨t, rfl⟩
  | error error =>
      obtain ⟨category, type, -, hlacks⟩ := hthrows s error s' h
      exact absurd hlacks hcomplete.not_lacks

/-- Both weighted operators and one variable. -/
def lineRegistry : Registry :=
  ((Registry.weighted "line").newVariable {}).2.1

theorem lineRegistry_complete : lineRegistry.Complete where
  shapes := by
    intro arguments type hshape
    cases hshape with
    | term => exact ⟨Registry.weightedProduct, .tail _ (.head _), rfl, rfl⟩
    | sum => exact ⟨Registry.weightedSum, .head _, rfl, rfl⟩
  hasVariable := ⟨Terminal.var "x1", by decide, rfl⟩

/-- Did the run end for want of something of that category and type? -/
def isExhausted (category : Category) (type : ExprType) :
    Option (Except GenerationError Tree × Sources) → Bool
  | some (.error error, _) => error == .exhausted category type
  | _ => false

theorem exists_of_isExhausted {category : Category} {type : ExprType}
    {outcome : Option (Except GenerationError Tree × Sources)}
    (h : isExhausted category type outcome = true) :
    ∃ rest, outcome = some (.error (.exhausted category type), rest) := by
  match outcome with
  | some (.error error, rest) => exact ⟨rest, by rw [eq_of_beq h]⟩
  | some (.ok _, _) => cases h
  | none => cases h

/-- Without a variable the weighted shapes cannot be closed; with one, a tree is drawn. -/
theorem generate_fails_honestly_line :
    (∃ rest, generate (Registry.weighted "empty") 1 3 Policy.full none ⟨⟨7⟩, {}⟩ =
        some (.error (.exhausted .terminal .var), rest)) ∧
      (Registry.weighted "empty").Lacks .terminal .var ∧
      ∃ t rest, generate lineRegistry 1 3 Policy.full none ⟨⟨7⟩, {}⟩ = some (.ok t, rest) := by
  have hfails : isExhausted .terminal .var
      (generate (Registry.weighted "empty") 1 3 Policy.full none ⟨⟨7⟩, {}⟩) = true := by
    decide +kernel
  have hends : (generate lineRegistry 1 3 Policy.full none ⟨⟨7⟩, {}⟩).isSome = true := by
    decide +kernel
  obtain ⟨rest, hrun⟩ := exists_of_isExhausted hfails
  obtain ⟨category, type, herror, hlacks⟩ :=
    (generate_fails_honestly (by decide) Policy.full none _).1 _ rest hrun
  cases herror
  obtain ⟨⟨outcome, rest'⟩, hline⟩ := Option.isSome_iff_exists.mp hends
  obtain ⟨t, rfl⟩ := (generate_fails_honestly (by decide) Policy.full none _).2
    lineRegistry_complete outcome rest' hline
  exact ⟨⟨rest, hrun⟩, hlacks, t, rest', hline⟩

end SymbolicRegression
