import SymbolicRegression.Proofs.Registries

/-!
# When the names of a registry are distinct

Operators, helpers and terminals of one registry share their names, because a text has nothing but
the name to tell which one is meant. Every operation that is given a name checks that it is free.
Minting a variable is given none: it takes the next name of the counter as it comes. So distinctness
is kept by all operations but that one, and by that one exactly if the check would have passed. Names
are never given back, so a duplicate stays.

Two mints never meet, since a counter only counts up. What a mint can meet is a name of the
counter's own form that was registered by hand before.
-/

namespace SymbolicRegression

/-! ## Names of a counter -/

namespace Name

theorem numbered_inj {stem : String} {m n : Nat} (h : numbered stem m = numbered stem n) :
    m = n := by
  have hdigits : Nat.toDigits 10 m = Nat.toDigits 10 n :=
    String.ofList_injective ((String.append_right_inj stem).mp h)
  rw [← Nat.ofDigitChars_ten_toDigits (n := m), hdigits, Nat.ofDigitChars_ten_toDigits]

/-- A numbered name ends in a digit. -/
theorem exists_getLast?_numbered (stem : String) (n : Nat) :
    ∃ c, (numbered stem n).toList.getLast? = some c ∧ c.isDigit = true := by
  have hne : Nat.toDigits 10 n ≠ [] := Nat.toDigits_ne_nil
  refine ⟨(Nat.toDigits 10 n).getLast hne, ?_, ?_⟩
  · rw [numbered, String.toList_append, String.toList_ofList, List.getLast?_append,
      List.getLast?_eq_some_getLast hne, Option.some_or]
  · exact Nat.isDigit_of_mem_toDigits (by decide) (by decide) (List.getLast_mem hne)

theorem numbered_ne {stem name : String} {n : Nat} {c : Char}
    (hlast : name.toList.getLast? = some c) (hc : c.isDigit = false) : numbered stem n ≠ name := by
  rintro rfl
  obtain ⟨d, hd, hdigit⟩ := exists_getLast?_numbered stem n
  rw [hlast] at hd
  cases hd
  rw [hc] at hdigit
  cases hdigit

end Name

namespace NameCounter

/-- The counter after so many more names. -/
def advance (c : NameCounter) (count : Nat) : NameCounter :=
  { c with minted := c.minted + count }

end NameCounter

namespace Registry

/-! ## What can be asked of a registry -/

/-- The operations of a registry with what they are given. A counter may be shared with the rest of
the process, where names are minted at any time. -/
inductive Request where
  | operator (arity : Nat) (op : Operator)
  | builtin (name : String) (arguments : List ExprType) (result : ExprType)
  | weightedSkeleton
  | helper (h : Helper)
  | terminal (t : Terminal)
  | ephemeral
  | newVariable
  | mintedElsewhere (count : Nat)

/-- The registries that are not made from others. -/
inductive Initial : Registry → Prop where
  | empty (name : String) (rootType : ExprType) : Initial (Registry.empty name rootType)
  | counted (name : String) (rootType : ExprType) (counter : NameCounter) :
      Initial { Registry.empty name rootType with variableCounter := some counter }
  | weighted (name : String) : Initial (Registry.weighted name)

/-- The counter that the next variable is named by. -/
def counter (w : Registry × Supply) : NameCounter :=
  w.1.variableCounter.getD w.2.variableCounter

def nextName (w : Registry × Supply) : String :=
  (w.1.newVariable w.2).1

namespace Request

/-- A registry and the shared supply after a request. One that is refused changes nothing. -/
def perform (w : Registry × Supply) : Request → Registry × Supply
  | operator arity op => ((w.1.registerOperator arity op).toOption.getD w.1, w.2)
  | builtin name arguments result =>
    (((w.1.registerBuiltin name arguments result).map Prod.snd).toOption.getD w.1, w.2)
  | weightedSkeleton => (w.1.registerWeightedSkeleton.toOption.getD w.1, w.2)
  | helper h => ((w.1.registerHelper h).toOption.getD w.1, w.2)
  | terminal t => ((w.1.addTerminal t).toOption.getD w.1, w.2)
  | ephemeral => (w.1.addEphemeralConstant, w.2)
  | newVariable => (w.1.newVariable w.2).2
  | mintedElsewhere count =>
    match w.1.variableCounter with
    | some c => ({ w.1 with variableCounter := some (c.advance count) }, w.2)
    | none => (w.1, { w.2 with variableCounter := w.2.variableCounter.advance count })

def performAll (w : Registry × Supply) (requests : List Request) : Registry × Supply :=
  requests.foldl perform w

/-- The names that a request asks to register. -/
def names : Request → List String
  | operator _ op => [op.name]
  | builtin name _ _ => (Builtin.find? name).toList.map Builtin.name
  | weightedSkeleton => [weightedSum.name, weightedProduct.name]
  | helper h => [h.name]
  | terminal t => [t.name]
  | _ => []

end Request

/-! ## The names of a registry -/

/-- The name of every entry. A variable is declared by its terminal, so the two are one entry. -/
def names (r : Registry) : List String :=
  r.operatorNames ++ (r.helpers.map Helper.name ++ r.terminals.filterMap fun
    | .named t => some t.name
    | .ephemeral => none)

theorem mem_names {r : Registry} {name : String} :
    name ∈ r.names ↔ (∃ op ∈ r.operators, op.name = name) ∨ (∃ h ∈ r.helpers, h.name = name) ∨
      ∃ t, .named t ∈ r.terminals ∧ t.name = name := by
  have hspec : (∃ spec ∈ r.terminals, (match spec with
      | .named t => some t.name
      | .ephemeral => none) = some name) ↔ ∃ t, .named t ∈ r.terminals ∧ t.name = name := by
    constructor
    · rintro ⟨spec, hspec, hname⟩
      cases spec with
      | named t => exact ⟨t, hspec, by simpa using hname⟩
      | ephemeral => cases hname
    · rintro ⟨t, ht, rfl⟩
      exact ⟨.named t, ht, rfl⟩
  simp only [names, operatorNames, List.mem_append, List.mem_map, List.mem_filterMap, hspec]

theorem isTaken_iff {r : Registry} {name : String} : r.isTaken name = true ↔ name ∈ r.names := by
  rw [mem_names]
  simp only [isTaken, Bool.or_eq_true, operator?, helper?, List.find?_isSome, List.any_eq_true,
    beq_iff_eq, or_assoc]
  refine or_congr Iff.rfl (or_congr Iff.rfl ?_)
  constructor
  · rintro ⟨spec, hspec, hname⟩
    cases spec with
    | named t => exact ⟨t, hspec, by simpa using hname⟩
    | ephemeral => cases hname
  · rintro ⟨t, ht, rfl⟩
    exact ⟨.named t, ht, beq_self_eq_true _⟩

theorem notMem_names_of_checkFree {r : Registry} {name : String} {u : Unit}
    (h : r.checkFree name = .ok u) : name ∉ r.names := by
  intro hmem
  rw [checkFree, if_pos (isTaken_iff.mpr hmem)] at h
  cases h

theorem names_addOperator (r : Registry) (op : Operator) :
    (r.addOperator op).names.Perm (r.names ++ [op.name]) := by
  show ((r.addOperator op).operatorNames ++ _).Perm _
  rw [operatorNames_addOperator, names, List.append_assoc, List.append_assoc]
  exact List.Perm.append_left _ List.perm_append_comm

theorem registerHelper_eq_ok {r r' : Registry} {h : Helper} (hok : r.registerHelper h = .ok r') :
    h.name ∉ r.names ∧ r' = { r with helpers := r.helpers ++ [h] } := by
  rw [registerHelper] at hok
  obtain ⟨u, hfree, heq⟩ := bind_eq_ok hok
  cases heq
  exact ⟨notMem_names_of_checkFree hfree, rfl⟩

theorem addTerminal_eq_ok {r r' : Registry} {t : Terminal} (hok : r.addTerminal t = .ok r') :
    t.name ∉ r.names ∧ r' = { r with terminals := r.terminals ++ [.named t] } := by
  rw [addTerminal] at hok
  obtain ⟨u, hfree, heq⟩ := bind_eq_ok hok
  cases heq
  exact ⟨notMem_names_of_checkFree hfree, rfl⟩

theorem names_addHelper (r : Registry) (h : Helper) :
    ({ r with helpers := r.helpers ++ [h] } : Registry).names.Perm (r.names ++ [h.name]) := by
  simp only [names, operatorNames, List.map_append, List.map_singleton, List.append_assoc]
  exact List.Perm.append_left _ (List.Perm.append_left _ List.perm_append_comm)

theorem names_addNamed (r : Registry) (t : Terminal) :
    ({ r with terminals := r.terminals ++ [.named t] } : Registry).names = r.names ++ [t.name] := by
  simp only [names, operatorNames, List.filterMap_append, List.append_assoc]
  rfl

theorem names_addEphemeralConstant (r : Registry) : r.addEphemeralConstant.names = r.names := by
  rw [addEphemeralConstant]
  split
  · rfl
  · simp only [names, operatorNames, List.filterMap_append]
    simp

/-! ## One request -/

theorem nextName_eq (w : Registry × Supply) :
    nextName w = Name.numbered (counter w).stem ((counter w).minted + 1) := by
  obtain ⟨r, supply⟩ := w
  simp only [nextName, counter, newVariable]
  cases r.variableCounter with
  | none => rfl
  | some c => rfl

theorem names_newVariable (w : Registry × Supply) :
    (Request.newVariable.perform w).1.names = w.1.names ++ [nextName w] := by
  obtain ⟨r, supply⟩ := w
  simp only [Request.perform, nextName, newVariable]
  cases r.variableCounter with
  | none => exact names_addNamed r _
  | some c => exact names_addNamed { r with variableCounter := _ } _

/-- What a request other than minting adds to the names passed the check, so it was free. -/
theorem exists_names_perform (w : Registry × Supply) {request : Request}
    (h : request ≠ .newVariable) :
    ∃ added, added ⊆ request.names ∧ added.Nodup ∧ (∀ name ∈ added, name ∉ w.1.names) ∧
      (request.perform w).1.names.Perm (w.1.names ++ added) := by
  have hkept : ∀ r : Registry, r.names = w.1.names →
      ∃ added, added ⊆ request.names ∧ added.Nodup ∧ (∀ name ∈ added, name ∉ w.1.names) ∧
        r.names.Perm (w.1.names ++ added) := by
    intro r hr
    refine ⟨[], List.nil_subset _, List.nodup_nil, List.forall_mem_nil _, ?_⟩
    rw [hr, List.append_nil]
  have hone : ∀ (r : Registry) (name : String), name ∈ request.names → name ∉ w.1.names →
      r.names.Perm (w.1.names ++ [name]) →
      ∃ added, added ⊆ request.names ∧ added.Nodup ∧ (∀ name ∈ added, name ∉ w.1.names) ∧
        r.names.Perm (w.1.names ++ added) := by
    intro r name hname hfree hperm
    exact ⟨[name], List.cons_subset.mpr ⟨hname, List.nil_subset _⟩, List.nodup_singleton _,
      List.forall_mem_singleton.mpr hfree, hperm⟩
  cases request with
  | operator arity op =>
      cases hok : w.1.registerOperator arity op with
      | error e => simp only [Request.perform, hok]; exact hkept _ rfl
      | ok r =>
          obtain ⟨hfree, rfl⟩ := registerOperator_eq_ok hok
          simp only [Request.perform, hok]
          exact hone _ op.name List.mem_cons_self (notMem_names_of_checkFree hfree)
            (names_addOperator _ op)
  | builtin name arguments result =>
      cases hok : w.1.registerBuiltin name arguments result with
      | error e => simp only [Request.perform, hok]; exact hkept _ rfl
      | ok pair =>
          obtain ⟨op, r⟩ := pair
          obtain ⟨hfree, rfl⟩ := registerBuiltin_eq_ok hok
          have hname : op.name ∈ (Request.builtin name arguments result).names := by
            rw [registerBuiltin] at hok
            split at hok
            · cases hok
            · next b hb =>
                obtain ⟨r, -, heq⟩ := bind_eq_ok hok
                cases heq
                simp [Request.names, hb]
          simp only [Request.perform, hok]
          exact hone _ op.name hname (notMem_names_of_checkFree hfree) (names_addOperator _ op)
  | weightedSkeleton =>
      cases hok : w.1.registerWeightedSkeleton with
      | error e => simp only [Request.perform, hok]; exact hkept _ rfl
      | ok r =>
          obtain ⟨hsum, hproduct, rfl⟩ := registerWeightedSkeleton_eq_ok hok
          simp only [Request.perform, hok]
          refine ⟨[weightedSum.name, weightedProduct.name], List.Subset.refl _, by decide, ?_, ?_⟩
          · intro name hname
            simp only [List.mem_cons, List.not_mem_nil, or_false] at hname
            rcases hname with rfl | rfl
            · exact notMem_names_of_checkFree hsum
            · exact notMem_names_of_checkFree hproduct
          · refine (names_addOperator _ _).trans ?_
            show (_ ++ [weightedProduct.name]).Perm (_ ++ ([weightedSum.name] ++ _))
            rw [← List.append_assoc]
            exact List.Perm.append_right _ (names_addOperator _ _)
  | helper helper =>
      cases hok : w.1.registerHelper helper with
      | error e => simp only [Request.perform, hok]; exact hkept _ rfl
      | ok r =>
          obtain ⟨hfree, rfl⟩ := registerHelper_eq_ok hok
          simp only [Request.perform, hok]
          exact hone _ helper.name List.mem_cons_self hfree (names_addHelper _ helper)
  | terminal t =>
      cases hok : w.1.addTerminal t with
      | error e => simp only [Request.perform, hok]; exact hkept _ rfl
      | ok r =>
          obtain ⟨hfree, rfl⟩ := addTerminal_eq_ok hok
          simp only [Request.perform, hok]
          exact hone _ t.name List.mem_cons_self hfree (.of_eq (names_addNamed _ t))
  | ephemeral => exact hkept _ (names_addEphemeralConstant w.1)
  | newVariable => exact absurd rfl h
  | mintedElsewhere count =>
      refine hkept _ ?_
      simp only [Request.perform]
      split
      · rfl
      · rfl

theorem nodup_perform_iff (w : Registry × Supply) (request : Request) :
    (request.perform w).1.names.Nodup ↔
      w.1.names.Nodup ∧ (request = .newVariable → nextName w ∉ w.1.names) := by
  by_cases hmint : request = .newVariable
  · subst hmint
    rw [names_newVariable, List.nodup_append']
    simp
  · obtain ⟨added, -, hadded, hfree, hperm⟩ := exists_names_perform w hmint
    rw [hperm.nodup_iff, List.nodup_append']
    constructor
    · exact fun h => ⟨h.1, fun heq => absurd heq hmint⟩
    · exact fun h => ⟨h.1, hadded, fun name hname hin => hfree name hin hname⟩

/-! ## Any number of requests -/

/-- Every variable is minted under a name that is free at that moment. -/
def MintsFree (w : Registry × Supply) : List Request → Prop
  | [] => True
  | request :: requests =>
    (request = .newVariable → nextName w ∉ w.1.names) ∧ MintsFree (request.perform w) requests

theorem nodup_performAll_iff (requests : List Request) : ∀ w : Registry × Supply,
    (Request.performAll w requests).1.names.Nodup ↔ w.1.names.Nodup ∧ MintsFree w requests := by
  induction requests with
  | nil => intro w; simp [Request.performAll, MintsFree]
  | cons request requests ih =>
      intro w
      have hstep : Request.performAll w (request :: requests) =
          Request.performAll (request.perform w) requests := rfl
      rw [hstep, ih, nodup_perform_iff, MintsFree, and_assoc]

theorem Initial.nodup_names {r : Registry} (h : r.Initial) : r.names.Nodup := by
  cases h with
  | empty => exact List.nodup_nil
  | counted => exact List.nodup_nil
  | weighted => show [weightedSum.name, weightedProduct.name].Nodup; decide

/-! ## Names of the counter's own form -/

/-- A counter only counts up, and a mint takes the very next number. -/
theorem exists_counter_perform (w : Registry × Supply) (request : Request) :
    ∃ count, counter (request.perform w) = (counter w).advance count ∧
      (request = .newVariable → count = 1) := by
  have hkept : ∀ r : Registry, r.variableCounter = w.1.variableCounter → request ≠ .newVariable →
      ∃ count, counter (r, w.2) = (counter w).advance count ∧
        (request = .newVariable → count = 1) := by
    intro r hr hmint
    exact ⟨0, by simp only [counter, hr]; rfl, fun heq => absurd heq hmint⟩
  cases request with
  | operator arity op =>
      refine hkept _ ?_ (by simp)
      cases hok : w.1.registerOperator arity op with
      | error e => rfl
      | ok r => obtain ⟨-, rfl⟩ := registerOperator_eq_ok hok; rfl
  | builtin name arguments result =>
      refine hkept _ ?_ (by simp)
      cases hok : w.1.registerBuiltin name arguments result with
      | error e => rfl
      | ok pair => obtain ⟨op, r⟩ := pair; obtain ⟨-, rfl⟩ := registerBuiltin_eq_ok hok; rfl
  | weightedSkeleton =>
      refine hkept _ ?_ (by simp)
      cases hok : w.1.registerWeightedSkeleton with
      | error e => rfl
      | ok r => obtain ⟨-, -, rfl⟩ := registerWeightedSkeleton_eq_ok hok; rfl
  | helper helper =>
      refine hkept _ ?_ (by simp)
      cases hok : w.1.registerHelper helper with
      | error e => rfl
      | ok r => obtain ⟨-, rfl⟩ := registerHelper_eq_ok hok; rfl
  | terminal t =>
      refine hkept _ ?_ (by simp)
      cases hok : w.1.addTerminal t with
      | error e => rfl
      | ok r => obtain ⟨-, rfl⟩ := addTerminal_eq_ok hok; rfl
  | ephemeral =>
      refine hkept _ ?_ (by simp)
      rw [addEphemeralConstant]
      split
      · rfl
      · rfl
  | newVariable =>
      refine ⟨1, ?_, fun _ => rfl⟩
      obtain ⟨r, supply⟩ := w
      simp only [Request.perform, counter, newVariable]
      cases r.variableCounter with
      | none => rfl
      | some c => rfl
  | mintedElsewhere count =>
      refine ⟨count, ?_, by simp⟩
      obtain ⟨r, supply⟩ := w
      simp only [Request.perform, counter]
      cases hr : r.variableCounter with
      | none => simp only [hr]; rfl
      | some c => rfl

/-- The counter has passed every number that stands in a name of its form. -/
def Passed (w : Registry × Supply) : Prop :=
  ∀ n, Name.numbered (counter w).stem n ∈ w.1.names → n ≤ (counter w).minted

theorem Initial.passed {r : Registry} (h : r.Initial) (supply : Supply) : Passed (r, supply) := by
  intro n hmem
  cases h with
  | empty => cases hmem
  | counted => cases hmem
  | weighted =>
      have hweighted : Name.numbered (counter (Registry.weighted _, supply)).stem n ∈
          [weightedSum.name, weightedProduct.name] := hmem
      simp only [List.mem_cons, List.not_mem_nil, or_false] at hweighted
      rcases hweighted with h | h
      · exact absurd h (Name.numbered_ne (c := 'm') (by decide) (by decide))
      · exact absurd h (Name.numbered_ne (c := 'l') (by decide) (by decide))

theorem Passed.perform {w : Registry × Supply} (h : Passed w) {request : Request}
    (hnames : ∀ name ∈ request.names, ∀ n, name ≠ Name.numbered (counter w).stem n) :
    Passed (request.perform w) := by
  intro n hmem
  obtain ⟨count, hcounter, hmint⟩ := exists_counter_perform w request
  rw [hcounter] at hmem ⊢
  show n ≤ (counter w).minted + count
  have hold : Name.numbered (counter w).stem n ∈ w.1.names → n ≤ (counter w).minted + count :=
    fun hin => Nat.le_add_right_of_le (h n hin)
  by_cases hrequest : request = .newVariable
  · subst hrequest
    rw [names_newVariable, List.mem_append, List.mem_singleton, nextName_eq] at hmem
    rcases hmem with hmem | heq
    · exact hold hmem
    · have hn : n = (counter w).minted + 1 := Name.numbered_inj heq
      have hcount := hmint rfl
      omega
  · obtain ⟨added, hadded, -, -, hperm⟩ := exists_names_perform w hrequest
    rcases List.mem_append.mp (hperm.mem_iff.mp hmem) with hmem | hmem
    · exact hold hmem
    · exact absurd rfl (hnames _ (hadded hmem) n)

/-- Without names of its form from elsewhere, a counter never comes upon one that is taken. -/
theorem Passed.mintsFree : ∀ {requests : List Request} {w : Registry × Supply}, Passed w →
    (∀ request ∈ requests, ∀ name ∈ request.names, ∀ n,
      name ≠ Name.numbered (counter w).stem n) → MintsFree w requests
  | [], _, _, _ => trivial
  | request :: requests, w, h, hnames => by
      obtain ⟨hrequest, hrequests⟩ := List.forall_mem_cons.mp hnames
      obtain ⟨count, hcounter, -⟩ := exists_counter_perform w request
      refine ⟨fun _ hin => ?_, Passed.mintsFree (h.perform hrequest) ?_⟩
      · rw [nextName_eq] at hin
        have hle := h _ hin
        omega
      · rw [hcounter]
        exact hrequests

/-! ## Distinct names -/

theorem variableNames_sublist (r : Registry) : r.variableNames.Sublist r.names := by
  have hterminals : r.variableNames.Sublist (r.terminals.filterMap fun
      | .named t => some t.name
      | .ephemeral => none) := by
    rw [variableNames]
    induction r.terminals with
    | nil => exact List.Sublist.refl _
    | cons spec specs ih =>
        cases spec with
        | ephemeral => exact ih
        | named t =>
            by_cases hkind : t.kind = .var
            · simp only [List.filterMap_cons, if_pos hkind]
              exact ih.cons_cons _
            · simp only [List.filterMap_cons, if_neg hkind]
              exact ih.cons _
  exact hterminals.trans ((List.sublist_append_right _ _).trans (List.sublist_append_right _ _))

theorem idxOf?_of_nodup {names : List String} (h : names.Nodup) {i : Nat} {name : String}
    (hi : names[i]? = some name) : names.idxOf? name = some i := by
  obtain ⟨hlt, rfl⟩ := List.getElem?_eq_some_iff.mp hi
  rw [List.idxOf?_eq_some_iff]
  refine ⟨hlt, rfl, fun j hj heq => ?_⟩
  have hij := (List.Nodup.getElem_inj_iff h).mp heq
  omega

/-- Whatever is asked of a new registry, in any order and with any refusals, no name is carried by
two of its entries exactly if no variable was minted under a name that was taken. Then no variable is
declared twice, and every one is found at its own place. A name that is taken when its number comes
up was registered by hand: as long as no request names an entry in the form of the counter, all names
are distinct. -/
theorem nodup_names_iff_mintsFree {r : Registry} (hr : r.Initial) (supply : Supply)
    (requests : List Request) :
    ((Request.performAll (r, supply) requests).1.names.Nodup ↔ MintsFree (r, supply) requests) ∧
      (MintsFree (r, supply) requests →
        (Request.performAll (r, supply) requests).1.variableNames.Nodup ∧
        ∀ i name, (Request.performAll (r, supply) requests).1.variableNames[i]? = some name →
          (Request.performAll (r, supply) requests).1.variableIndex? name = some i) ∧
      ((∀ request ∈ requests, ∀ name ∈ request.names, ∀ n,
          name ≠ Name.numbered (counter (r, supply)).stem n) →
        MintsFree (r, supply) requests) := by
  have hiff : (Request.performAll (r, supply) requests).1.names.Nodup ↔
      MintsFree (r, supply) requests := by
    rw [nodup_performAll_iff]
    exact and_iff_right hr.nodup_names
  refine ⟨hiff, fun h => ?_, (hr.passed supply).mintsFree⟩
  have hvariables := (hiff.mpr h).sublist (variableNames_sublist _)
  exact ⟨hvariables, fun i name hi => idxOf?_of_nodup hvariables hi⟩

/-- Two variables on both sides of an operator, a refused helper and a name of another form. -/
theorem nodup_names_weighted :
    Initial (Registry.weighted "w") ∧
      (Request.performAll (Registry.weighted "w", {}) [.newVariable, .helper ⟨"x1", 1, fun _ => 0⟩,
        .builtin "sin" [.var] .var, .mintedElsewhere 3, .terminal (Terminal.var "y"),
        .newVariable]).1.names.Nodup ∧
      (Request.performAll (Registry.weighted "w", {}) [.newVariable, .helper ⟨"x1", 1, fun _ => 0⟩,
        .builtin "sin" [.var] .var, .mintedElsewhere 3, .terminal (Terminal.var "y"),
        .newVariable]).1.variableNames = ["x1", "y", "x5"] := by
  refine ⟨.weighted "w", ?_, by decide +kernel⟩
  refine (nodup_names_iff_mintsFree (.weighted "w") {} _).1.mpr ?_
  simp only [MintsFree, reduceCtorEq, false_implies, true_implies, true_and, and_true]
  decide +kernel

/-- A variable that was declared by hand is declared again by the next mint, and the second one is
never found. -/
theorem duplicate_newVariable :
    Initial (Registry.empty "r" .var) ∧
      ¬ (Request.performAll (Registry.empty "r" .var, {})
        [.terminal (Terminal.var "x1"), .newVariable]).1.names.Nodup ∧
      (Request.performAll (Registry.empty "r" .var, {})
        [.terminal (Terminal.var "x1"), .newVariable]).1.variableNames = ["x1", "x1"] ∧
      (Request.performAll (Registry.empty "r" .var, {})
        [.terminal (Terminal.var "x1"), .newVariable]).1.variableIndex? "x1" = some 0 := by
  refine ⟨.empty "r" .var, ?_, ?_, ?_⟩
  · decide +kernel
  · decide +kernel
  · decide +kernel

end Registry

end SymbolicRegression
