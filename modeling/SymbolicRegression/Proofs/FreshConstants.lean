import SymbolicRegression.Proofs.DistinctNames
import SymbolicRegression.Proofs.GeneratedTypes

/-!
# Constants are handed out once

A constant is a parameter of its own, so no two constants may share a name by accident. Names are
minted wherever constants are asked for: for the leaves and the weighted shapes of a tree, for a
terminal that stands for a new constant at every draw, and for a caller that wants a name and
nothing else. Some are minted for nothing, because the draw that they were for fails later on.

`Supply.Mints` follows the supply alone and lists what has been minted between two states of it; the
numbers of a counter then tell all names apart. That a draw mints nothing else, and that the tree
that comes of it shows what was minted in the order of minting, is one rule for each way to combine
draws. The order of minting is that of the preorder because what is minted for one child is minted
before the next child is begun, and because the variable of a weighted term, which is drawn before
the constant in front of it is minted, mints nothing itself.
-/

namespace SymbolicRegression

/-! ## Minting -/

namespace Supply

/-- Between the two states of the supply these names of constants are minted, in this order. -/
inductive Mints : Supply → List String → Supply → Prop where
  | nothing (s : Supply) : Mints s [] s
  | constant {s s' : Supply} {names : List String} :
      Mints s.freshConstant.2 names s' → Mints s (s.freshConstant.1 :: names) s'

namespace Mints

variable {s s' s'' : Supply} {names names' : List String}

theorem one (s : Supply) : Mints s [s.freshConstant.1] s.freshConstant.2 :=
  .constant (.nothing _)

theorem trans (h : Mints s names s') (h' : Mints s' names' s'') :
    Mints s (names ++ names') s'' := by
  induction h with
  | nothing s => exact h'
  | constant _ ih => exact .constant (ih h')

/-- The counter keeps its stem and counts what has been minted. -/
theorem constantCounter_eq (h : Mints s names s') :
    s'.constantCounter = s.constantCounter.advance names.length := by
  induction h with
  | nothing s => rfl
  | @constant s s' names _ ih =>
      rw [ih, NameCounter.advance, NameCounter.advance, List.length_cons, Nat.add_comm names.length,
        ← Nat.add_assoc]
      rfl

/-- The names carry the numbers that follow on what had been minted before. -/
theorem names_eq (h : Mints s names s') :
    names = (List.range' (s.constantCounter.minted + 1) names.length).map
      (Name.numbered s.constantCounter.stem) := by
  induction h with
  | nothing s => rfl
  | @constant s s' names _ ih =>
      rw [List.length_cons, List.range'_succ, List.map_cons]
      exact congrArg (s.freshConstant.1 :: ·) ih

/-- What has been minted can be read off the two states. -/
theorem unique (h : Mints s names s') (h' : Mints s names' s') : names = names' := by
  have hlength : names.length = names'.length := by
    have heq := h.constantCounter_eq.symm.trans h'.constantCounter_eq
    exact Nat.add_left_cancel (congrArg NameCounter.minted heq)
  rw [h.names_eq, h'.names_eq, hlength]

theorem nodup (h : Mints s names s') : names.Nodup := by
  rw [h.names_eq]
  exact List.Nodup.map (fun _ _ => Name.numbered_inj) List.nodup_range'

theorem isConstant (h : Mints s names s') (hstem : s.constantCounter.stem = "c") {name : String}
    (hname : name ∈ names) : Name.isConstant name = true := by
  rw [h.names_eq, hstem, List.mem_map] at hname
  obtain ⟨n, hn, rfl⟩ := hname
  obtain ⟨k, rfl⟩ := Nat.exists_eq_add_one.mpr (Nat.lt_of_lt_of_le (Nat.succ_pos _)
    (List.mem_range'_1.mp hn).1)
  exact Name.isConstant_numbered k

/-- Names that are taken from what has been minted, in the same order, have increasing numbers. -/
theorem exists_numbers_of_sublist (h : Mints s names s') {taken : List String}
    (htaken : taken.Sublist names) :
    ∃ numbers : List Nat, numbers.Pairwise (· < ·) ∧
      taken = numbers.map (Name.numbered s.constantCounter.stem) := by
  rw [h.names_eq, List.sublist_map_iff] at htaken
  obtain ⟨numbers, hnumbers, rfl⟩ := htaken
  exact ⟨numbers, List.Pairwise.sublist hnumbers List.pairwise_lt_range', rfl⟩

end Mints

end Supply

/-! ## Draws that mint -/

namespace Draw

variable {α β : Type} {P : List String → α → Prop} {Q : List String → β → Prop}

/-- Whatever comes of the draw, its supply has minted some names, and they suit the result. -/
def Mints (P : List String → α → Prop) (x : Draw α) : Prop :=
  ∀ s outcome s', x s = some (outcome, s') →
    ∃ names, s.supply.Mints names s'.supply ∧ ∀ a, outcome = .ok a → P names a

theorem mints_pure {a : α} (h : P [] a) : Mints P (pure a) := by
  intro s outcome s' hrun
  cases hrun
  refine ⟨[], .nothing _, ?_⟩
  intro b hb
  cases hb
  exact h

theorem mints_throw {e : GenerationError} : Mints P (throw e) := by
  intro s outcome s' hrun
  cases hrun
  refine ⟨[], .nothing _, ?_⟩
  intro a ha
  cases ha

theorem mints_endless : Mints P endless := by
  intro s outcome s' hrun
  cases hrun

theorem mints_random {f : Stream → α × Stream} (h : ∀ s, P [] (f s).1) : Mints P (random f) := by
  intro s outcome s' hrun
  cases hrun
  refine ⟨[], .nothing _, ?_⟩
  intro a ha
  cases ha
  exact h s.stream

theorem mints_freshConstant :
    Mints (fun names t => ∃ name, t = Terminal.const name ∧ names = [name]) freshConstant := by
  intro s outcome s' hrun
  cases hrun
  refine ⟨_, .one s.supply, ?_⟩
  intro t ht
  cases ht
  exact ⟨_, rfl, rfl⟩

/-- What the second part mints comes after what the first has minted. -/
theorem Mints.bind {x : Draw α} {f : α → Draw β} (hx : Mints P x)
    (hf : ∀ names a, P names a → Mints (fun names' b => Q (names ++ names') b) (f a)) :
    Mints Q (x >>= f) := by
  intro s outcome s' hrun
  rw [bind_apply] at hrun
  obtain ⟨⟨first, s₁⟩, hxs, hrest⟩ := Option.bind_eq_some_iff.mp hrun
  obtain ⟨names, hnames, hP⟩ := hx s first s₁ hxs
  cases first with
  | error e =>
      cases hrest
      refine ⟨names, hnames, ?_⟩
      intro b hb
      cases hb
  | ok a =>
      obtain ⟨names', hnames', hQ⟩ := hf names a (hP a rfl) s₁ outcome s' hrest
      exact ⟨names ++ names', hnames.trans hnames', hQ⟩

theorem Mints.bind_pure {x : Draw α} {g : α → β} (hx : Mints P x)
    (h : ∀ names a, P names a → Q names (g a)) : Mints Q (x >>= fun a => pure (g a)) := by
  refine hx.bind fun names a ha => mints_pure ?_
  rw [List.append_nil]
  exact h names a ha

/-- The draw mints nothing. -/
def MintsNothing (P : α → Prop) (x : Draw α) : Prop :=
  Mints (fun names a => names = [] ∧ P a) x

theorem MintsNothing.bind {P : α → Prop} {x : Draw α} {f : α → Draw β} (hx : MintsNothing P x)
    (hf : ∀ a, P a → Mints Q (f a)) : Mints Q (x >>= f) := by
  refine Mints.bind hx ?_
  rintro _ a ⟨rfl, ha⟩
  exact hf a ha

/-- A choice from the stream mints nothing, and what follows may rely on where it was made. -/
theorem mints_choose {xs : List α} {f : Option α → Draw β}
    (hnone : Mints Q (f none)) (hsome : ∀ x ∈ xs, Mints Q (f (some x))) :
    Mints Q (random (Stream.choose? xs) >>= f) := by
  refine MintsNothing.bind (P := fun x? => ∀ x, x? = some x → x ∈ xs)
    (mints_random fun s => ⟨rfl, fun x hx => mem_of_choose? hx⟩) fun x? hmem => ?_
  cases x? with
  | none => exact hnone
  | some x => exact hsome x (hmem x rfl)

end Draw

/-! ## Trees -/

namespace Registry

/-- The name of a constant that is no terminal of the registry. -/
def unnamedConstant? (r : Registry) : Node → Option String
  | .terminal t => if t.kind = .const ∧ .named t ∉ r.terminals then some t.name else none
  | .operator _ => none

/-- The constants among the nodes that are no terminals of the registry, in the order in which the
nodes come. -/
def unnamedConstants (r : Registry) (nodes : List Node) : List String :=
  nodes.filterMap r.unnamedConstant?

variable {r : Registry}

theorem unnamedConstants_operator (op : Operator) (nodes : List Node) :
    r.unnamedConstants (.operator op :: nodes) = r.unnamedConstants nodes :=
  List.filterMap_cons_none rfl

theorem unnamedConstants_append (nodes nodes' : List Node) :
    r.unnamedConstants (nodes ++ nodes') = r.unnamedConstants nodes ++ r.unnamedConstants nodes' :=
  List.filterMap_append

theorem unnamedConstants_named {t : Terminal} (h : .named t ∈ r.terminals) (nodes : List Node) :
    r.unnamedConstants (.terminal t :: nodes) = r.unnamedConstants nodes :=
  List.filterMap_cons_none (if_neg fun hunnamed => hunnamed.2 h)

theorem unnamedConstants_const_sublist (name : String) (nodes : List Node) :
    (r.unnamedConstants (.terminal (Terminal.const name) :: nodes)).Sublist
      (name :: r.unnamedConstants nodes) := by
  cases hname : r.unnamedConstant? (.terminal (Terminal.const name)) with
  | none =>
      rw [unnamedConstants, List.filterMap_cons_none hname]
      exact List.sublist_cons_self _ _
  | some given =>
      rw [unnamedConstants, List.filterMap_cons_some hname]
      rw [unnamedConstant?, Option.ite_none_right_eq_some] at hname
      rw [← Option.some.inj hname.2]
      exact List.Sublist.refl _

end Registry

namespace Draw

variable {r : Registry}

/-- Of the names that have been minted for it, the tree shows some, in this order; its other
constants are terminals of the registry. -/
def Shows (r : Registry) (names : List String) (t : Tree) : Prop :=
  (r.unnamedConstants t.preorder).Sublist names

theorem shows_leaf_const (name : String) : Shows r [name] (.leaf (Terminal.const name)) :=
  Registry.unnamedConstants_const_sublist name []

theorem shows_leaf_named {t : Terminal} (h : .named t ∈ r.terminals) : Shows r [] (.leaf t) := by
  rw [Shows, Tree.leaf, Tree.preorder, Registry.unnamedConstants_named h]
  exact List.Sublist.refl []

/-- A terminal is one of the registry's, or it is minted for this draw. -/
theorem mints_terminal {P : List String → Terminal → Prop} (type : ExprType)
    (hnamed : ∀ t, .named t ∈ r.terminalsFor type → P [] t)
    (hephemeral : .ephemeral ∈ r.terminalsFor type → ∀ name, P [name] (Terminal.const name)) :
    Mints P (terminal r type) := by
  rw [terminal]
  refine mints_choose mints_throw fun spec hspec => ?_
  intro s outcome s' hrun
  cases spec with
  | named t =>
      cases hrun
      refine ⟨[], .nothing _, ?_⟩
      intro u hu
      cases hu
      exact hnamed t hspec
  | ephemeral =>
      cases hrun
      refine ⟨_, .one s.supply, ?_⟩
      intro u hu
      cases hu
      exact hephemeral hspec _

theorem mints_leaf (type : ExprType) :
    Mints (fun names t => Shows r names (.leaf t)) (terminal r type) :=
  mints_terminal type
    (fun _ ht => shows_leaf_named (Registry.mem_terminals_of_mem_terminalsFor ht))
    (fun _ name => shows_leaf_const name)

/-- A variable is never minted: a constant cannot stand in for it. -/
theorem mints_variable :
    MintsNothing (fun t => .named t ∈ r.terminals) (terminal r .var) := by
  refine mints_terminal .var
    (fun t ht => ⟨rfl, Registry.mem_terminals_of_mem_terminalsFor ht⟩) fun hephemeral => ?_
  have hsubtype := Registry.isSubtype_of_mem_terminalsFor hephemeral
  exact absurd hsubtype (by decide)

theorem mints_operator (type : ExprType) : MintsNothing (fun _ => True) (operator r type) := by
  rw [operator]
  exact mints_choose mints_throw fun op _ => mints_pure ⟨rfl, trivial⟩

theorem mints_shape (arguments : List ExprType) (result : ExprType) :
    MintsNothing (fun _ => True) (shape r arguments result) := by
  rw [shape]
  split
  · exact mints_pure ⟨rfl, trivial⟩
  · exact mints_throw

theorem mints_weightedTerm : Mints (Shows r) (weightedTerm r) := by
  rw [weightedTerm]
  refine (mints_shape _ _).bind fun product _ => ?_
  refine mints_variable.bind fun x hx => ?_
  refine mints_freshConstant.bind_pure ?_
  rintro _ _ ⟨name, rfl, rfl⟩
  have hchildren : Tree.preorderAll [.leaf (Terminal.const name), .leaf x] =
      [.terminal (Terminal.const name), .terminal x] := rfl
  rw [Shows, Tree.preorder, Registry.unnamedConstants_operator, hchildren]
  refine (Registry.unnamedConstants_const_sublist name _).trans ?_
  rw [Registry.unnamedConstants_named hx]
  exact List.Sublist.refl [name]

theorem mints_weightedSum : Mints (Shows r) (weightedSum r) := by
  rw [weightedSum]
  refine (mints_shape _ _).bind fun sum _ => ?_
  refine mints_weightedTerm.bind fun names product hproduct => ?_
  refine mints_freshConstant.bind_pure ?_
  rintro _ _ ⟨name, rfl, rfl⟩
  have hchildren : Tree.preorderAll [product, .leaf (Terminal.const name)] =
      product.preorder ++ [.terminal (Terminal.const name)] := rfl
  rw [Shows, Tree.preorder, Registry.unnamedConstants_operator, hchildren,
    Registry.unnamedConstants_append]
  exact hproduct.append (Registry.unnamedConstants_const_sublist name [])

theorem mints_fresh_leaf : Mints (Shows r) (return .leaf (← freshConstant)) := by
  refine mints_freshConstant.bind_pure ?_
  rintro _ _ ⟨name, rfl, rfl⟩
  exact shows_leaf_const name

theorem mints_close (type : ExprType) : Mints (Shows r) (close r type) := by
  rw [close.eq_def]
  split
  · exact mints_weightedSum
  · exact mints_weightedTerm
  · exact mints_fresh_leaf
  · exact (mints_leaf _).bind_pure fun _ _ ht => ht

/-- One child is drawn after the other, so what is minted for them is minted from left to right. -/
theorem mints_mapM {α : Type} {f : α → Draw Tree} (h : ∀ a, Mints (Shows r) (f a)) :
    ∀ xs : List α, Mints (fun names ts =>
      (r.unnamedConstants (Tree.preorderAll ts)).Sublist names) (xs.mapM f)
  | [] => by
      rw [List.mapM_nil]
      exact mints_pure (List.Sublist.refl [])
  | x :: xs => by
      rw [List.mapM_cons]
      refine (h x).bind fun names t ht => ?_
      refine (mints_mapM h xs).bind_pure fun names' ts hts => ?_
      rw [Tree.preorderAll, Registry.unnamedConstants_append]
      exact ht.append hts

theorem mints_fill (policy : Policy) (height : Nat) :
    ∀ (levels depth : Nat) (type : ExprType),
      Mints (Shows r) (fill r policy height levels depth type) := by
  intro levels
  induction levels with
  | zero =>
      intro depth type
      rw [fill]
      exact mints_endless
  | succ levels ih =>
      intro depth type
      rw [fill]
      refine MintsNothing.bind (P := fun _ => True) (mints_random fun _ => ⟨rfl, trivial⟩)
        fun stop _ => ?_
      split
      · exact mints_close type
      · split
        · exact mints_fresh_leaf
        · refine MintsNothing.bind (P := fun _ => True) ?_ fun leaf _ => ?_
          · split
            · exact mints_random fun _ => ⟨rfl, trivial⟩
            · exact mints_pure ⟨rfl, trivial⟩
          · split
            · exact (mints_leaf type).bind_pure fun _ _ ht => ht
            · refine (mints_operator type).bind fun op _ => ?_
              refine (mints_mapM (fun argument => ih (depth + 1) argument) op.arguments).bind_pure
                fun names ts hts => ?_
              rw [Shows, Tree.preorder, Registry.unnamedConstants_operator]
              exact hts

theorem mints_generate (low high : Nat) (policy : Policy) (root : Option ExprType) :
    Mints (Shows r) (generate r low high policy root) := by
  rw [generate]
  split
  · exact .bind (P := fun _ _ => False) mints_throw fun _ _ hnever => hnever.elim
  · exact MintsNothing.bind (P := fun _ => True) (mints_random fun _ => ⟨rfl, trivial⟩)
      fun height _ => mints_fill policy height _ _ _

end Draw

/-! ## Processes -/

/-- What mints constants in a process: generating a tree from some state of a stream, asking for a
name, and drawing a terminal. -/
inductive Call where
  | generate (r : Registry) (low high : Nat) (policy : Policy) (root : Option ExprType)
    (stream : Stream)
  | newConstant
  | instantiate (spec : TerminalSpec)

inductive Answer where
  | tree (outcome : Except GenerationError Tree)
  | name (name : String)
  | terminal (t : Terminal)

/-- The answer to a call and what is left of the supply, unless the call does not end. -/
def Call.perform (supply : Supply) : Call → Option (Answer × Supply)
  | generate r low high policy root stream =>
    (SymbolicRegression.generate r low high policy root ⟨stream, supply⟩).map fun result =>
      (.tree result.1, result.2.supply)
  | newConstant =>
    let (name, supply) := supply.freshConstant
    some (.name name, supply)
  | instantiate spec =>
    let (t, supply) := spec.instantiate supply
    some (.terminal t, supply)

/-- A call that was answered, and the constants that were minted for it. -/
structure Step where
  call : Call
  answer : Answer
  minted : List String

/-- Calls are made one after the other, on what their predecessors have left of the supply. -/
inductive Process : Supply → List Step → Supply → Prop where
  | start (s : Supply) : Process s [] s
  | next {s s' s'' : Supply} {steps : List Step} (step : Step) :
      Process s steps s' → step.call.perform s' = some (step.answer, s'') →
      s'.Mints step.minted s'' → Process s (steps ++ [step]) s''

/-- What is handed out was minted for the call. A tree shows some of it, in the order of minting, and
its other constants are terminals of the registry; a failed attempt shows nothing. -/
inductive Step.HandsOutFresh : Step → Prop where
  | tree {r : Registry} {low high : Nat} {policy : Policy} {root : Option ExprType}
      {stream : Stream} {t : Tree} {minted : List String} (numbers : List Nat) :
      numbers.Pairwise (· < ·) →
      r.unnamedConstants t.preorder = numbers.map (Name.numbered "c") →
      (r.unnamedConstants t.preorder).Nodup →
      (r.unnamedConstants t.preorder).Sublist minted →
      HandsOutFresh ⟨.generate r low high policy root stream, .tree (.ok t), minted⟩
  | failure {r : Registry} {low high : Nat} {policy : Policy} {root : Option ExprType}
      {stream : Stream} (error : GenerationError) (minted : List String) :
      HandsOutFresh ⟨.generate r low high policy root stream, .tree (.error error), minted⟩
  | newConstant (name : String) : HandsOutFresh ⟨.newConstant, .name name, [name]⟩
  | named (t : Terminal) : HandsOutFresh ⟨.instantiate (.named t), .terminal t, []⟩
  | ephemeral (name : String) :
      HandsOutFresh ⟨.instantiate .ephemeral, .terminal (Terminal.const name), [name]⟩

namespace Call

variable {call : Call} {answer : Answer} {s s' : Supply}

/-- Every answered call has minted what it hands out. -/
theorem exists_mints (h : call.perform s = some (answer, s')) :
    ∃ minted, s.Mints minted s' ∧
      (s.constantCounter.stem = "c" → Step.HandsOutFresh ⟨call, answer, minted⟩) := by
  cases call with
  | newConstant =>
      cases h
      exact ⟨_, .one s, fun _ => .newConstant _⟩
  | instantiate spec =>
      cases spec with
      | named t =>
          cases h
          exact ⟨[], .nothing s, fun _ => .named t⟩
      | ephemeral =>
          cases h
          exact ⟨_, .one s, fun _ => .ephemeral _⟩
  | generate r low high policy root stream =>
      obtain ⟨⟨outcome, rest⟩, hrun, heq⟩ := Option.map_eq_some_iff.mp h
      cases heq
      obtain ⟨minted, hmints, hshows⟩ :=
        Draw.mints_generate low high policy root ⟨stream, s⟩ outcome rest hrun
      refine ⟨minted, hmints, fun hstem => ?_⟩
      cases outcome with
      | error error => exact .failure error minted
      | ok t =>
          have ht : Draw.Shows r minted t := hshows t rfl
          obtain ⟨numbers, hincreasing, heq⟩ := hmints.exists_numbers_of_sublist ht
          exact .tree numbers hincreasing (heq.trans (by rw [hstem])) (hmints.nodup.sublist ht) ht

end Call

namespace Process

variable {s s' : Supply} {steps : List Step}

theorem mints (h : Process s steps s') : s.Mints (steps.flatMap Step.minted) s' := by
  induction h with
  | start => exact .nothing s
  | next step _ _ hmints ih =>
      rw [List.flatMap_append, List.flatMap_singleton]
      exact ih.trans hmints

theorem handsOutFresh (h : Process s steps s') (hstem : s.constantCounter.stem = "c") :
    ∀ step ∈ steps, step.HandsOutFresh := by
  induction h with
  | start => exact List.forall_mem_nil _
  | next step hsteps hcall hmints ih =>
      rw [List.forall_mem_append, List.forall_mem_singleton]
      refine ⟨ih, ?_⟩
      obtain ⟨minted, hminted, hfresh⟩ := Call.exists_mints hcall
      rw [← hmints.unique hminted] at hfresh
      refine hfresh ?_
      rw [hsteps.mints.constantCounter_eq]
      exact hstem

end Process

/-- Every answered call has minted a list of names. Over any sequence of calls no name is minted
twice, and every name has the form of a constant. What a call hands out was minted for it. In a
tree, the constants that are no terminals of the registry are distinct, and their numbers increase
along the preorder. Calls may be made on different registries, with any policy and from any state
of a stream, and attempts that fail count like the others. -/
theorem constants_fresh :
    (∀ (call : Call) (s s' : Supply) (answer : Answer), call.perform s = some (answer, s') →
        ∃ minted, s.Mints minted s') ∧
      ∀ (named : Nat) (others : NameCounter) (steps : List Step) (s' : Supply),
        Process ⟨⟨"c", named⟩, others⟩ steps s' →
          (steps.flatMap Step.minted).Nodup ∧
          (∀ name ∈ steps.flatMap Step.minted, Name.isConstant name = true) ∧
          ∀ step ∈ steps, step.HandsOutFresh := by
  refine ⟨fun call s s' answer hcall => ?_, fun named others steps s' hprocess => ?_⟩
  · obtain ⟨minted, hmints, -⟩ := Call.exists_mints hcall
    exact ⟨minted, hmints⟩
  · have hmints := hprocess.mints
    exact ⟨hmints.nodup, fun name hname => hmints.isConstant rfl hname,
      hprocess.handsOutFresh rfl⟩

/-- A name, a tree, an attempt that fails after two names have been minted for it, and a terminal. -/
theorem constants_fresh_after_failure :
    ∃ (t : Tree) (steps : List Step) (s' : Supply), Process {} steps s' ∧
      steps.map Step.answer = [.name "c1", .tree (.ok t),
        .tree (.error (.exhausted .terminal .var)), .terminal (Terminal.const "c8")] ∧
      Preorder.text t.preorder = "wsum(wmul(c2, wsum(wmul(c3, x2), c4)), c5)" ∧
      steps.flatMap Step.minted = ["c1", "c2", "c3", "c4", "c5", "c6", "c7", "c8"] ∧
      (steps.flatMap Step.minted).Nodup ∧ ∀ step ∈ steps, step.HandsOutFresh := by
  have htree : observed? (fun t => Preorder.text t.preorder)
      (generate affineRegistry 2 3 Policy.full none ⟨⟨11⟩, ⟨⟨"c", 1⟩, ⟨"x", 0⟩⟩⟩) =
        some (.ok "wsum(wmul(c2, wsum(wmul(c3, x2), c4)), c5)", ⟨⟨"c", 5⟩, ⟨"x", 0⟩⟩) := by
    decide +kernel
  have hfails : observed? (fun t => Preorder.text t.preorder)
      (generate (Registry.weighted "empty") 2 2 Policy.full none ⟨⟨7⟩, ⟨⟨"c", 5⟩, ⟨"x", 0⟩⟩⟩) =
        some (.error (.exhausted .terminal .var), ⟨⟨"c", 7⟩, ⟨"x", 0⟩⟩) := by
    decide +kernel
  obtain ⟨t, stream, htree, htext⟩ := exists_of_observed?_ok htree
  obtain ⟨stream', hfails⟩ := exists_of_observed?_error hfails
  obtain ⟨hminted, hall⟩ := constants_fresh
  have hfirst : Call.newConstant.perform {} = some (.name "c1", ⟨⟨"c", 1⟩, ⟨"x", 0⟩⟩) := rfl
  have hsecond : (Call.generate affineRegistry 2 3 Policy.full none ⟨11⟩).perform
      ⟨⟨"c", 1⟩, ⟨"x", 0⟩⟩ = some (.tree (.ok t), ⟨⟨"c", 5⟩, ⟨"x", 0⟩⟩) := by
    rw [Call.perform, htree, Option.map_some]
  have hthird : (Call.generate (Registry.weighted "empty") 2 2 Policy.full none ⟨7⟩).perform
      ⟨⟨"c", 5⟩, ⟨"x", 0⟩⟩ =
        some (.tree (.error (.exhausted .terminal .var)), ⟨⟨"c", 7⟩, ⟨"x", 0⟩⟩) := by
    rw [Call.perform, hfails, Option.map_some]
  have hfourth : (Call.instantiate .ephemeral).perform ⟨⟨"c", 7⟩, ⟨"x", 0⟩⟩ =
      some (.terminal (Terminal.const "c8"), ⟨⟨"c", 8⟩, ⟨"x", 0⟩⟩) := rfl
  obtain ⟨first, hm₁⟩ := hminted _ _ _ _ hfirst
  obtain ⟨second, hm₂⟩ := hminted _ _ _ _ hsecond
  obtain ⟨third, hm₃⟩ := hminted _ _ _ _ hthird
  obtain ⟨fourth, hm₄⟩ := hminted _ _ _ _ hfourth
  have hone := Process.next ⟨_, _, first⟩ (.start {}) hfirst hm₁
  have htwo := Process.next ⟨_, _, second⟩ hone hsecond hm₂
  have hthree := Process.next ⟨_, _, third⟩ htwo hthird hm₃
  have hprocess := Process.next ⟨_, _, fourth⟩ hthree hfourth hm₄
  obtain ⟨hnodup, -, hfresh⟩ := hall 0 ⟨"x", 0⟩ _ _ hprocess
  refine ⟨t, _, _, hprocess, rfl, htext, ?_, hnodup, hfresh⟩
  have hmints := hprocess.mints
  have hcount : 8 = 0 + _ := congrArg NameCounter.minted hmints.constantCounter_eq
  rw [hmints.names_eq, ← Nat.zero_add (List.length _), ← hcount]
  decide +kernel

end SymbolicRegression
