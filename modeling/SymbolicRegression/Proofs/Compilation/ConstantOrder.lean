import SymbolicRegression.Program.Compile
import SymbolicRegression.Proofs.CompiledProgram
import SymbolicRegression.Proofs.Parsing.NameUses
import SymbolicRegression.Proofs.Parsing.Spans

/-!
# The order of the constants

The parameters of a program begin with the constants of its text, and fitted numbers are handed in by
position. So the order matters, and it is one that can be seen in the text: the constants are the
identifiers of constant form that are not called, each once, in the order in which they first stand
there.

The list is built one occurrence at a time, and `FirstOccurrences` is what holds of it on the way: it
has the names that have occurred so far, each once, and a name that comes before another one in it has
occurred before every occurrence of the other one. An occurrence that stands behind all earlier ones
keeps it so, whether the name is new or not.
-/

namespace SymbolicRegression

/-- An identifier of constant form stands at that byte of the text, and the token behind it is no
opening parenthesis. -/
def ConstantAt (tokens : List Token) (name : String) (position : Nat) : Prop :=
  Name.isConstant name = true ∧
    ∃ before t after, tokens = before ++ t :: after ∧ t.kind = .name name ∧
      t.start = position ∧ ∀ u ∈ after.head?, u.kind ≠ .leftParen

/-! ## First occurrences -/

/-- The names that occur, each once, in the order in which they first do. -/
structure FirstOccurrences (occurrences : List (String × Nat)) (names : List String) : Prop where
  mem_iff : ∀ name, name ∈ names ↔ ∃ i, (name, i) ∈ occurrences
  inOrder : names.Pairwise fun a b =>
    ∃ i, (a, i) ∈ occurrences ∧ ∀ j, (b, j) ∈ occurrences → i < j

namespace FirstOccurrences

variable {occurrences later : List (String × Nat)} {names : List String} {name : String} {i : Nat}

theorem nil : FirstOccurrences [] [] :=
  ⟨fun name => by simp, List.Pairwise.nil⟩

theorem nodup (h : FirstOccurrences occurrences names) : names.Nodup := by
  refine h.inOrder.imp ?_
  rintro a b ⟨i, hi, hbefore⟩ rfl
  exact Nat.lt_irrefl i (hbefore i hi)

/-- A name that has occurred already has its place. -/
theorem again (h : FirstOccurrences occurrences names) (hbehind : ∀ o ∈ occurrences, o.2 < i)
    (hmem : name ∈ names) : FirstOccurrences (occurrences ++ [(name, i)]) names := by
  refine ⟨fun n => ?_, h.inOrder.imp ?_⟩
  · rw [h.mem_iff]
    constructor
    · rintro ⟨j, hj⟩
      exact ⟨j, List.mem_append_left _ hj⟩
    · rintro ⟨j, hj⟩
      rcases List.mem_append.mp hj with hj | hj
      · exact ⟨j, hj⟩
      · obtain ⟨rfl, -⟩ := Prod.mk.inj (List.mem_singleton.mp hj)
        exact (h.mem_iff n).mp hmem
  · rintro a b ⟨j, hj, hbefore⟩
    refine ⟨j, List.mem_append_left _ hj, fun k hk => ?_⟩
    rcases List.mem_append.mp hk with hk | hk
    · exact hbefore k hk
    · obtain ⟨-, rfl⟩ := Prod.mk.inj (List.mem_singleton.mp hk)
      exact hbehind _ hj

/-- A name that has not occurred yet comes behind all that have. -/
theorem first (h : FirstOccurrences occurrences names) (hbehind : ∀ o ∈ occurrences, o.2 < i)
    (hnew : name ∉ names) : FirstOccurrences (occurrences ++ [(name, i)]) (names ++ [name]) := by
  have hnone : ∀ j, (name, j) ∉ occurrences := fun j hj => hnew ((h.mem_iff name).mpr ⟨j, hj⟩)
  refine ⟨fun n => ?_, ?_⟩
  · rw [List.mem_append, h.mem_iff, List.mem_singleton]
    constructor
    · rintro (⟨j, hj⟩ | rfl)
      · exact ⟨j, List.mem_append_left _ hj⟩
      · exact ⟨i, List.mem_append_right _ List.mem_cons_self⟩
    · rintro ⟨j, hj⟩
      rcases List.mem_append.mp hj with hj | hj
      · exact .inl ⟨j, hj⟩
      · exact .inr (congrArg Prod.fst (List.mem_singleton.mp hj))
  · rw [List.pairwise_append]
    refine ⟨h.inOrder.imp_of_mem ?_, List.pairwise_singleton _ _, ?_⟩
    · rintro a b - hb ⟨j, hj, hbefore⟩
      refine ⟨j, List.mem_append_left _ hj, fun k hk => ?_⟩
      rcases List.mem_append.mp hk with hk | hk
      · exact hbefore k hk
      · obtain ⟨rfl, -⟩ := Prod.mk.inj (List.mem_singleton.mp hk)
        exact absurd hb hnew
    · intro a ha b hb
      rw [List.mem_singleton.mp hb]
      obtain ⟨j, hj⟩ := (h.mem_iff a).mp ha
      refine ⟨j, List.mem_append_left _ hj, fun k hk => ?_⟩
      rcases List.mem_append.mp hk with hk | hk
      · exact absurd hk (hnone k)
      · obtain ⟨-, rfl⟩ := Prod.mk.inj (List.mem_singleton.mp hk)
        exact hbehind _ hj

/-- Going through occurrences that stand one behind the other. -/
theorem foldl (h : FirstOccurrences occurrences names)
    (hsorted : (occurrences ++ later).Pairwise fun o p => o.2 < p.2) :
    FirstOccurrences (occurrences ++ later) ((later.map Prod.fst).foldl
      (fun found name => if found.contains name then found else found ++ [name]) names) := by
  induction later generalizing occurrences names with
  | nil => rwa [List.append_nil]
  | cons o later ih =>
      have hbehind : ∀ p ∈ occurrences, p.2 < o.2 := fun p hp =>
        (List.pairwise_append.mp hsorted).2.2 p hp o List.mem_cons_self
      have hsplit : occurrences ++ o :: later = (occurrences ++ [o]) ++ later := by simp
      rw [hsplit] at hsorted ⊢
      rw [List.map_cons, List.foldl_cons]
      refine ih ?_ hsorted
      split
      · next hmem => exact h.again hbehind (List.contains_iff_mem.mp hmem)
      · next hmem => exact h.first hbehind fun hname => hmem (List.contains_iff_mem.mpr hname)

end FirstOccurrences

/-! ## Values among tokens -/

/-- The identifiers that are not called, with their places. -/
def valuesOf : List Token → List (String × Nat)
  | [] => []
  | t :: tokens =>
    match t.kind with
    | .name name =>
      if Grammar.opensCall (tokens.map Token.kind) then valuesOf tokens
      else (name, t.start) :: valuesOf tokens
    | _ => valuesOf tokens

theorem map_fst_valuesOf (tokens : List Token) :
    (valuesOf tokens).map Prod.fst =
      ((Grammar.usesOf (tokens.map Token.kind)).filter fun u => !u.isCall).map NameUse.name := by
  induction tokens with
  | nil => rfl
  | cons t tokens ih =>
      rw [valuesOf, List.map_cons]
      cases hkind : t.kind with
      | name name =>
          rw [Grammar.usesOf]
          cases hopens : Grammar.opensCall (tokens.map Token.kind) with
          | true => simpa [hopens] using ih
          | false => simpa [hopens] using ih
      | _ => simpa [Grammar.usesOf] using ih

theorem sublist_map_snd_valuesOf (tokens : List Token) :
    ((valuesOf tokens).map Prod.snd).Sublist (tokens.map Token.start) := by
  induction tokens with
  | nil => exact List.Sublist.slnil
  | cons t tokens ih =>
      rw [valuesOf, List.map_cons]
      split
      · split
        · exact ih.cons _
        · exact ih.cons_cons _
      · exact ih.cons _

theorem opensCall_eq_false_iff (tokens : List Token) :
    Grammar.opensCall (tokens.map Token.kind) = false ↔
      ∀ u ∈ tokens.head?, u.kind ≠ .leftParen := by
  cases tokens with
  | nil => simp [Grammar.opensCall]
  | cons t tokens =>
      rw [List.map_cons, List.head?_cons, Grammar.opensCall.eq_def]
      cases hkind : t.kind <;> simp [hkind]

theorem mem_valuesOf {tokens : List Token} {name : String} {i : Nat} :
    (name, i) ∈ valuesOf tokens ↔
      ∃ before t after, tokens = before ++ t :: after ∧ t.kind = .name name ∧
        t.start = i ∧ ∀ u ∈ after.head?, u.kind ≠ .leftParen := by
  induction tokens with
  | nil =>
      constructor
      · intro h
        cases h
      · rintro ⟨before, t, after, h, -⟩
        cases before <;> cases h
  | cons t tokens ih =>
      -- an occurrence is the first token, or one of the others
      have hsplit : (name, i) ∈ valuesOf (t :: tokens) ↔
          (t.kind = .name name ∧ t.start = i ∧
            Grammar.opensCall (tokens.map Token.kind) = false) ∨
          (name, i) ∈ valuesOf tokens := by
        rw [valuesOf]
        cases hkind : t.kind with
        | name n =>
            cases hopens : Grammar.opensCall (tokens.map Token.kind) with
            | true => simp
            | false => simp [eq_comm]
        | _ => simp
      rw [hsplit, ih, opensCall_eq_false_iff]
      constructor
      · rintro (⟨hkind, hstart, hnext⟩ | ⟨before, u, after, rfl, hu⟩)
        · exact ⟨[], t, tokens, rfl, hkind, hstart, hnext⟩
        · exact ⟨t :: before, u, after, rfl, hu⟩
      · rintro ⟨before, u, after, heq, hu⟩
        cases before with
        | nil =>
            cases heq
            exact .inl hu
        | cons v before =>
            cases heq
            exact .inr ⟨before, u, after, rfl, hu⟩

/-! ## Programs -/

/-- The constants of an expression are those that stand in its text, in the order of the text. -/
theorem firstOccurrences_constantNames {text : String} {tokens : List Token} {e : Expr Float}
    (htokens : tokenize text = .ok tokens) (h : parse text = .ok e) :
    FirstOccurrences ((valuesOf tokens).filter fun o => Name.isConstant o.1) e.constantNames := by
  have hnames : e.names.filter Name.isConstant =
      ((valuesOf tokens).filter fun o => Name.isConstant o.1).map Prod.fst := by
    rw [e.names_eq_uses, uses_of_parse htokens h, ← map_fst_valuesOf, List.filter_map]
    rfl
  have hsorted : (valuesOf tokens).Pairwise fun o p => o.2 < p.2 := by
    have hstarts := List.pairwise_map.mpr (Lexer.pairwise_start_of_tokenize htokens)
    exact List.pairwise_map.mp (hstarts.sublist (sublist_map_snd_valuesOf tokens))
  have hfold := FirstOccurrences.nil.foldl (hsorted.filter fun o => Name.isConstant o.1)
  rwa [← hnames] at hfold

/-- The parameters of a program are the constants of its text and then the variables of the registry.
The constants are the identifiers of constant form that no opening parenthesis follows; each is listed
once, and one is listed before another one if it stands in the text before the other one ever does. -/
theorem Program.constants_in_text_order {text : String} {registry : Registry} {p : Program}
    (h : compile text registry = .ok p) :
    p.params = p.constantNames ++ registry.variableNames ∧
      ∃ tokens, tokenize text = .ok tokens ∧
        p.constantNames.Nodup ∧
        (∀ name, name ∈ p.constantNames ↔ ∃ i, ConstantAt tokens name i) ∧
        p.constantNames.Pairwise fun a b =>
          ∃ i, ConstantAt tokens a i ∧ ∀ j, ConstantAt tokens b j → i < j := by
  rw [compile] at h
  split at h
  · cases h
  · next e hparse =>
      obtain ⟨hconstants, hvariables, -⟩ := compile_eq_ok h
      obtain ⟨tokens, htokens, -⟩ := tokens_of_parse hparse
      have hfirst := firstOccurrences_constantNames htokens hparse
      have hat : ∀ name i, (name, i) ∈ ((valuesOf tokens).filter fun o => Name.isConstant o.1) ↔
          ConstantAt tokens name i := by
        intro name i
        rw [List.mem_filter, mem_valuesOf, ConstantAt, and_comm]
      simp only [hconstants]
      refine ⟨by rw [params, hconstants, hvariables], tokens, htokens, hfirst.nodup, ?_, ?_⟩
      · intro name
        simp only [hfirst.mem_iff, hat]
      · simpa only [hat] using hfirst.inOrder

/-- A registry in which a helper has a name of constant form. -/
def Program.constantLikeRegistry : Registry :=
  { weightedRegistry with helpers := [⟨"c2", 1, fun a => 2 * a.headD 0⟩] }

def Program.constantLikeProgram : Program where
  constantNames := ["c7", "c3", "c1"]
  variableNames := ["x1", "x2"]
  instructions := [
    ⟨.function fun a => 2 * a.headD 0, [.param 1], 0⟩,
    ⟨.negate, [.slot 0], 0⟩,
    ⟨.binary .pow, [.param 0, .slot 0], 0⟩,
    ⟨.function Registry.weightedProduct.apply, [.param 2, .param 4], 1⟩,
    ⟨.binary .mul, [.slot 1, .param 0], 1⟩,
    ⟨.binary .sub, [.slot 0, .slot 1], 1⟩]
  slotCount := 2
  result := .slot 1

/-- The base of a power comes before a constant with a smaller number, and the helper is no constant
though it is called by the name of one. -/
theorem Program.constants_in_text_order_helper :
    compile "c7^-c2(c3) - wmul(c1, x2)*c7" constantLikeRegistry = .ok constantLikeProgram ∧
      constantLikeProgram.params = ["c7", "c3", "c1"] ++ ["x1", "x2"] ∧
      ∃ tokens, tokenize "c7^-c2(c3) - wmul(c1, x2)*c7" = .ok tokens ∧
        (∃ i, ConstantAt tokens "c7" i ∧ ∀ j, ConstantAt tokens "c3" j → i < j) ∧
        ¬ ∃ i, ConstantAt tokens "c2" i := by
  have h : compile "c7^-c2(c3) - wmul(c1, x2)*c7" constantLikeRegistry =
      .ok constantLikeProgram := by
    cbv
  obtain ⟨hparams, tokens, htokens, -, hmem, horder⟩ := constants_in_text_order h
  refine ⟨h, hparams, tokens, htokens, ?_, ?_⟩
  · exact List.rel_of_pairwise_cons horder (show "c3" ∈ ["c3", "c1"] by decide)
  · rw [← hmem]
    decide

end SymbolicRegression
