import SymbolicRegression.Polynomial.Text
import SymbolicRegression.Proofs.Printing.Legible

/-!
# Typeset texts

LaTeX reads a text as characters and commands. A text is in order if its braces and its growing
delimiters are nested properly. A superscript belongs to what stands before it, and that may have
one superscript only: a second one behind the group of the first is refused, also with blanks
between.

How a text is put together from others decides whether it has a double superscript. To see that it
has none, it is scanned from left to right, with a stack that says of every open brace whether it
belongs to a superscript. A text that is put together properly takes the scan back to the stack on
which it began.
-/

namespace SymbolicRegression

namespace Latex

/-- A character, or a command without its backslash. -/
inductive Token where
  | char (c : Char)
  | command (name : List Char)
  deriving Repr, DecidableEq

/-- The name of a command is as many letters as there are, or one other character. -/
def commandName (cs : List Char) : List Char :=
  let letters := cs.takeWhile Char.isAlpha
  if letters.isEmpty then cs.take 1 else letters

/-- The tokens of a text. -/
def tokens : List Char → List Token
  | [] => []
  | c :: cs =>
    if c = '\\' then .command (commandName cs) :: tokens (cs.drop (commandName cs).length)
    else .char c :: tokens cs
termination_by cs => cs.length
decreasing_by
  · rw [List.length_drop, List.length_cons]
    omega
  · exact Nat.lt_succ_self _

abbrev opening : Token := .char '\x7b'
abbrev closing : Token := .char '\x7d'
abbrev caret : Token := .char '^'
abbrev blank : Token := .char ' '
abbrev left : Token := .command ['l', 'e', 'f', 't']
abbrev right : Token := .command ['r', 'i', 'g', 'h', 't']

/-- A token that neither begins nor ends anything. -/
def Token.IsPlain (t : Token) : Prop :=
  t ≠ opening ∧ t ≠ closing ∧ t ≠ left ∧ t ≠ right

/-- The growing delimiters that belong together. -/
inductive Fence : Char → Char → Prop
  | parentheses : Fence '(' ')'
  | bars : Fence '|' '|'

/-- Every brace and every left delimiter is closed by its counterpart, and nothing is closed in
between that was opened outside. -/
inductive Balanced : List Token → Prop
  | nil : Balanced []
  | token {t : Token} (h : t.IsPlain) : Balanced [t]
  | append {ss ts : List Token} (hs : Balanced ss) (ht : Balanced ts) : Balanced (ss ++ ts)
  | group {ts : List Token} (h : Balanced ts) : Balanced (opening :: (ts ++ [closing]))
  | fence {l r : Char} {ts : List Token} (hfence : Fence l r) (h : Balanced ts) :
      Balanced (left :: .char l :: (ts ++ [right, .char r]))

theorem Balanced.cons {t : Token} {ts : List Token} (ht : t.IsPlain) (hts : Balanced ts) :
    Balanced (t :: ts) :=
  .append (.token ht) hts

/-- The text ends with the group of a superscript. -/
def EndsRaised (ts : List Token) : Prop :=
  ∃ front group, ts = front ++ caret :: opening :: (group ++ [closing]) ∧ Balanced group

/-- Somewhere the group of a superscript is followed by another superscript. -/
def DoubleSuperscript (ts : List Token) : Prop :=
  ∃ front blanks back, ts = front ++ (blanks ++ caret :: back) ∧ EndsRaised front ∧
    ∀ t ∈ blanks, t = blank

example : tokens "\\left(x\\right)^2".toList =
    [left, .char '(', .char 'x', right, .char ')', caret, .char '2'] := by
  decide +kernel

theorem EndsRaised.append {ts : List Token} (h : EndsRaised ts) (front : List Token) :
    EndsRaised (front ++ ts) := by
  obtain ⟨front', group, rfl, hgroup⟩ := h
  exact ⟨front ++ front', group, by rw [List.append_assoc], hgroup⟩

namespace DoubleSuperscript

variable {ts : List Token}

theorem append_left (h : DoubleSuperscript ts) (front : List Token) :
    DoubleSuperscript (front ++ ts) := by
  obtain ⟨front', blanks, back, rfl, hraised, hblanks⟩ := h
  exact ⟨front ++ front', blanks, back, by rw [List.append_assoc], hraised.append front, hblanks⟩

theorem append_right (h : DoubleSuperscript ts) (back : List Token) :
    DoubleSuperscript (ts ++ back) := by
  obtain ⟨front, blanks, back', rfl, hraised, hblanks⟩ := h
  refine ⟨front, blanks, back' ++ back, ?_, hraised, hblanks⟩
  rw [List.append_assoc, List.append_assoc, List.cons_append]

end DoubleSuperscript

/-! ## Scanning -/

/-- What stands before the place that the scan has reached, blanks apart. -/
inductive Phase where
  | base
  | caret
  | raised
  deriving DecidableEq

/-- The state of a scan: for every open brace whether it is that of a superscript, and whether a
double superscript has been seen. -/
structure Scan where
  opened : List Bool := []
  phase : Phase := .base
  doubled : Bool := false

namespace Scan

def step (s : Scan) : Token → Scan
  -- a brace right behind a caret is that of a superscript
  | .char '\x7b' => { s with opened := decide (s.phase = .caret) :: s.opened, phase := .base }
  | .char '\x7d' =>
    { s with opened := s.opened.tail, phase := if s.opened.headD false then .raised else .base }
  | .char '^' => { s with phase := .caret, doubled := s.doubled || decide (s.phase = .raised) }
  | .char ' ' => s
  | _ => { s with phase := .base }

def run (s : Scan) (ts : List Token) : Scan :=
  ts.foldl step s

variable {s : Scan} {t : Token} {ts us : List Token}

theorem run_append : s.run (ts ++ us) = (s.run ts).run us :=
  List.foldl_append

theorem step_eq (hopen : t ≠ opening) (hclose : t ≠ closing) (hcaret : t ≠ caret)
    (hblank : t ≠ blank) : s.step t = { s with phase := .base } := by
  rw [step.eq_def]
  split <;> first | rfl | contradiction

/-- What has been seen is not forgotten. -/
theorem doubled_step (h : s.doubled = true) : (s.step t).doubled = true := by
  rw [step.eq_def]
  split <;> simp [h]

theorem doubled_run (h : s.doubled = true) : (s.run ts).doubled = true := by
  induction ts generalizing s with
  | nil => exact h
  | cons t ts ih => exact ih (doubled_step h)

theorem opened_step (hopen : t ≠ opening) (hclose : t ≠ closing) :
    (s.step t).opened = s.opened := by
  rw [step.eq_def]
  split <;> first | rfl | contradiction

/-- What is nested properly closes all that it opens. -/
theorem opened_run (h : Balanced ts) : (s.run ts).opened = s.opened := by
  induction h generalizing s with
  | nil => rfl
  | token h => exact opened_step h.1 h.2.1
  | append _ _ ihs iht => rw [run_append, iht, ihs]
  | @group ts _ ih =>
      change ((s.step opening).run (ts ++ [closing])).opened = _
      rw [run_append]
      change ((s.step opening).run ts).opened.tail = _
      rw [ih]
      rfl
  | @fence l r ts hfence _ ih =>
      have hends : ∀ s : Scan, (s.step (.char l)).opened = s.opened ∧
          (s.step (.char r)).opened = s.opened := by
        intro s
        cases hfence with
        | parentheses => exact ⟨rfl, rfl⟩
        | bars => exact ⟨rfl, rfl⟩
      change (((s.step left).step (.char l)).run (ts ++ [right, .char r])).opened = _
      rw [run_append]
      change (((Scan.run _ ts).step right).step (.char r)).opened = _
      rw [(hends _).2]
      change (Scan.run _ ts).opened = _
      rw [ih, (hends _).1]
      rfl

theorem run_blanks (h : ∀ t ∈ ts, t = blank) : s.run ts = s := by
  induction ts with
  | nil => rfl
  | cons t ts ih =>
      obtain ⟨rfl, hts⟩ := List.forall_mem_cons.mp h
      exact ih hts

/-- A group that follows a caret leaves a superscript. -/
theorem phase_run_of_endsRaised (h : EndsRaised ts) : (s.run ts).phase = .raised := by
  obtain ⟨front, group, rfl, hgroup⟩ := h
  rw [run_append]
  change (((s.run front).step caret).step opening |>.run (group ++ [closing])).phase = _
  rw [run_append]
  change (if (Scan.run _ group).opened.headD false then Phase.raised else .base) = _
  rw [opened_run hgroup]
  rfl

/-- A double superscript is seen from every state. -/
theorem doubled_of_doubleSuperscript (h : DoubleSuperscript ts) : (s.run ts).doubled = true := by
  obtain ⟨front, blanks, back, rfl, hraised, hblanks⟩ := h
  rw [run_append, run_append, run_blanks hblanks]
  change (((s.run front).step caret).run back).doubled = true
  refine doubled_run ?_
  change ((s.run front).doubled || decide ((s.run front).phase = .raised)) = true
  rw [phase_run_of_endsRaised hraised]
  exact Bool.or_true _

end Scan

/-! ## Texts that can be put together -/

/-- No mark of LaTeX and no blank: such a character is printed as it is. -/
def IsOrdinary (c : Char) : Prop :=
  c ≠ '\\' ∧ c ≠ '\x7b' ∧ c ≠ '\x7d' ∧ c ≠ '^' ∧ c ≠ ' '

instance : DecidablePred IsOrdinary :=
  fun _ => inferInstanceAs (Decidable (_ ∧ _))

theorem IsOrdinary.step {c : Char} (h : IsOrdinary c) (s : Scan) :
    s.step (.char c) = { s with phase := .base } := by
  obtain ⟨-, hopen, hclose, hcaret, hblank⟩ := h
  exact Scan.step_eq (by simpa using hopen) (by simpa using hclose) (by simpa using hcaret)
    (by simpa using hblank)

variable {cs ds : List Char} {c l r : Char}

theorem tokens_cons (hc : c ≠ '\\') : tokens (c :: cs) = .char c :: tokens cs := by
  rw [tokens, if_neg hc]

/-- A command ends where its letters end. -/
theorem tokens_command {name : List Char} (hne : name ≠ []) (hname : name.all Char.isAlpha = true)
    (hc : c.isAlpha = false) :
    tokens ('\\' :: (name ++ c :: cs)) = .command name :: tokens (c :: cs) := by
  have hletters : (name ++ c :: cs).takeWhile Char.isAlpha = name := by
    rw [List.takeWhile_append_of_pos (List.all_eq_true.mp hname),
      List.takeWhile_cons_of_neg (by rw [hc]; decide), List.append_nil]
  have hcommand : commandName (name ++ c :: cs) = name := by
    rw [commandName, hletters, if_neg]
    rwa [List.isEmpty_iff]
  rw [tokens, if_pos rfl, hcommand, List.drop_left]

/-- No token of the text goes on behind it. -/
def Whole (cs : List Char) : Prop :=
  ∀ rest, tokens (cs ++ rest) = tokens cs ++ tokens rest

theorem tokens_nil : tokens [] = [] := by
  rw [tokens]

theorem whole_nil : Whole [] := by
  intro rest
  rw [tokens_nil]
  rfl

/-- Enough to know of a text is what it gives in front of others. -/
theorem whole_of_tokens_append {ts : List Token}
    (h : ∀ rest, tokens (cs ++ rest) = ts ++ tokens rest) : Whole cs ∧ tokens cs = ts := by
  have htokens := h []
  rw [List.append_nil, tokens_nil, List.append_nil] at htokens
  exact ⟨fun rest => by rw [h, htokens], htokens⟩

theorem Whole.append (hcs : Whole cs) (hds : Whole ds) : Whole (cs ++ ds) := by
  intro rest
  rw [List.append_assoc, hcs, hds, hcs, List.append_assoc]

theorem whole_of_ne (h : ∀ c ∈ cs, c ≠ '\\') : Whole cs ∧ tokens cs = cs.map .char := by
  apply whole_of_tokens_append
  intro rest
  induction cs with
  | nil => rfl
  | cons c cs ih =>
      obtain ⟨hc, hcs⟩ := List.forall_mem_cons.mp h
      rw [List.cons_append, tokens_cons hc, ih hcs]
      rfl

/-- A command with the character behind it. -/
theorem whole_command (name : List Char) (hne : name ≠ []) (hname : name.all Char.isAlpha = true)
    (hc : c.isAlpha = false) (hslash : c ≠ '\\') :
    Whole ('\\' :: (name ++ [c])) ∧
      tokens ('\\' :: (name ++ [c])) = [.command name, .char c] := by
  apply whole_of_tokens_append
  intro rest
  rw [List.cons_append, List.append_assoc, List.singleton_append,
    tokens_command hne hname hc, tokens_cons hslash]
  rfl

/-- A text that can stand between braces or delimiters: it is in order, apart from a double
superscript exactly where it says so. -/
structure Body (doubled : Prop) (cs : List Char) : Prop where
  whole : Whole cs
  balanced : Balanced (tokens cs)
  doubleSuperscript : doubled → DoubleSuperscript (tokens cs)
  run : ¬doubled → ∀ s : Scan, s.phase = .base →
    ∃ phase, s.run (tokens cs) = { s with phase := phase }

/-- A text that can stand behind others: whatever has been scanned before, only its own end decides
what a superscript behind it belongs to. -/
structure Typeset (doubled : Prop) (raised : Bool) (cs : List Char) : Prop where
  whole : Whole cs
  balanced : Balanced (tokens cs)
  doubleSuperscript : doubled → DoubleSuperscript (tokens cs)
  endsRaised : raised = true → EndsRaised (tokens cs)
  run : ¬doubled → ∀ s : Scan,
    s.run (tokens cs) = { s with phase := if raised then .raised else .base }

variable {p q : Prop} {raised raised' : Bool}

theorem Body.doubleSuperscript_iff (h : Body p cs) : DoubleSuperscript (tokens cs) ↔ p := by
  refine ⟨fun hdouble => ?_, h.doubleSuperscript⟩
  by_contra hp
  obtain ⟨phase, hrun⟩ := h.run hp {} rfl
  have hseen := Scan.doubled_of_doubleSuperscript (s := {}) hdouble
  rw [hrun] at hseen
  cases hseen

theorem body_nil : Body False [] where
  whole := whole_nil
  balanced := by
    rw [tokens]
    exact .nil
  doubleSuperscript := False.elim
  run _ s _ := ⟨s.phase, by rw [tokens]; rfl⟩

namespace Typeset

theorem body (h : Typeset p raised cs) : Body p cs :=
  ⟨h.whole, h.balanced, h.doubleSuperscript, fun hp s _ => ⟨_, h.run hp s⟩⟩

theorem congr (h : Typeset p raised cs) (hpq : p ↔ q) : Typeset q raised cs :=
  propext hpq ▸ h

theorem word (hne : cs ≠ []) (h : ∀ c ∈ cs, IsOrdinary c) : Typeset False false cs := by
  obtain ⟨hwhole, htokens⟩ := whole_of_ne fun c hc => (h c hc).1
  refine ⟨hwhole, ?_, False.elim, Bool.noConfusion, fun _ s => ?_⟩
  · rw [htokens]
    clear hne hwhole htokens
    induction cs with
    | nil => exact .nil
    | cons c cs ih =>
        obtain ⟨⟨-, hopen, hclose, -⟩, hcs⟩ := List.forall_mem_cons.mp h
        refine .cons ⟨?_, ?_, by simp, by simp⟩ (ih hcs)
        · simpa using hopen
        · simpa using hclose
  · rw [htokens]
    clear hwhole htokens
    -- after its first character the word can be taken for one that starts there
    induction cs generalizing s with
    | nil => exact absurd rfl hne
    | cons c cs ih =>
        obtain ⟨hc, hcs⟩ := List.forall_mem_cons.mp h
        change (s.step (.char c)).run (cs.map .char) = _
        rw [hc.step]
        cases cs with
        | nil => rfl
        | cons d cs => exact ih (List.cons_ne_nil d cs) hcs _

theorem append (h : Typeset p raised cs) (h' : Typeset q raised' ds) :
    Typeset (p ∨ q) raised' (cs ++ ds) := by
  have htokens : tokens (cs ++ ds) = tokens cs ++ tokens ds := h.whole ds
  refine ⟨h.whole.append h'.whole, ?_, ?_, ?_, ?_⟩
  · rw [htokens]
    exact h.balanced.append h'.balanced
  · rw [htokens]
    rintro (hp | hq)
    · exact (h.doubleSuperscript hp).append_right _
    · exact (h'.doubleSuperscript hq).append_left _
  · rw [htokens]
    exact fun hr => (h'.endsRaised hr).append _
  · intro hpq s
    rw [htokens, Scan.run_append, h.run fun hp => hpq (.inl hp), h'.run fun hq => hpq (.inr hq)]

theorem behindBlank (h : Typeset p raised cs) : Typeset p raised (' ' :: cs) := by
  have hall : ∀ rest, tokens (' ' :: cs ++ rest) = ([blank] ++ tokens cs) ++ tokens rest := by
    intro rest
    rw [List.cons_append, tokens_cons (by decide), h.whole]
    rfl
  obtain ⟨hwhole, htokens⟩ := whole_of_tokens_append hall
  refine ⟨hwhole, ?_, ?_, ?_, ?_⟩
  · rw [htokens]
    exact .cons (by simp [Token.IsPlain]) h.balanced
  · rw [htokens]
    exact fun hp => (h.doubleSuperscript hp).append_left _
  · rw [htokens]
    exact fun hr => (h.endsRaised hr).append _
  · intro hp s
    rw [htokens]
    exact h.run hp s

end Typeset

/-! ### Braces -/

/-- A text between braces. -/
def group (cs : List Char) : List Char :=
  '\x7b' :: (cs ++ ['\x7d'])

namespace Body

theorem tokens_group (h : Body p cs) (rest : List Char) :
    tokens (group cs ++ rest) = opening :: (tokens cs ++ [closing]) ++ tokens rest := by
  rw [group, List.cons_append, tokens_cons (by decide), List.append_assoc, h.whole,
    List.singleton_append, tokens_cons (by decide), List.cons_append, List.append_assoc,
    List.singleton_append]

/-- Behind a caret a group is a superscript. -/
theorem run_group (h : Body p cs) (hp : ¬p) (s : Scan) :
    s.run (opening :: (tokens cs ++ [closing])) =
      { s with phase := if s.phase = .caret then .raised else .base } := by
  obtain ⟨phase, hrun⟩ := h.run hp (s.step opening) rfl
  change (s.step opening).run (tokens cs ++ [closing]) = _
  rw [Scan.run_append, hrun]
  change Scan.mk s.opened (if decide (s.phase = .caret) = true then .raised else .base) s.doubled =
    _
  simp only [decide_eq_true_eq]

theorem doubleSuperscript_group (h : Body p cs) (hp : p) :
    DoubleSuperscript (opening :: (tokens cs ++ [closing])) :=
  ((h.doubleSuperscript hp).append_right [closing]).append_left [opening]

end Body

namespace Typeset

/-- A command is applied to what stands between the braces behind it. -/
theorem command (name : List Char) (hne : name ≠ []) (hname : name.all Char.isAlpha = true)
    (hleft : name ≠ ['l', 'e', 'f', 't']) (hright : name ≠ ['r', 'i', 'g', 'h', 't'])
    (h : Body p cs) : Typeset p false ('\\' :: (name ++ group cs)) := by
  have hall : ∀ rest, tokens ('\\' :: (name ++ group cs) ++ rest) =
      .command name :: (opening :: (tokens cs ++ [closing])) ++ tokens rest := by
    intro rest
    have hgroup := h.tokens_group rest
    rw [group, List.cons_append] at hgroup
    rw [group, List.cons_append, List.append_assoc, List.cons_append,
      tokens_command hne hname (by decide), hgroup]
    rfl
  obtain ⟨hwhole, htokens⟩ := whole_of_tokens_append hall
  refine ⟨hwhole, ?_, ?_, Bool.noConfusion, fun hp s => ?_⟩
  · rw [htokens]
    refine .cons ⟨by simp, by simp, ?_, ?_⟩ (.group h.balanced)
    · simpa using hleft
    · simpa using hright
  · rw [htokens]
    exact fun hp => (h.doubleSuperscript_group hp).append_left [_]
  · rw [htokens]
    exact h.run_group hp { s with phase := .base }

/-- A group behind other things is no superscript. -/
theorem grouped (h : Typeset p raised cs) (h' : Body q ds) :
    Typeset (p ∨ q) false (cs ++ group ds) := by
  have hall : ∀ rest, tokens (cs ++ group ds ++ rest) =
      tokens cs ++ (opening :: (tokens ds ++ [closing])) ++ tokens rest := by
    intro rest
    rw [List.append_assoc, h.whole, h'.tokens_group, List.append_assoc]
  obtain ⟨hwhole, htokens⟩ := whole_of_tokens_append hall
  refine ⟨hwhole, ?_, ?_, Bool.noConfusion, fun hpq s => ?_⟩
  · rw [htokens]
    exact h.balanced.append (.group h'.balanced)
  · rw [htokens]
    rintro (hp | hq)
    · exact (h.doubleSuperscript hp).append_right _
    · exact (h'.doubleSuperscript_group hq).append_left _
  · rw [htokens, Scan.run_append, h.run fun hp => hpq (.inl hp),
      h'.run_group fun hq => hpq (.inr hq)]
    cases raised <;> rfl

/-- A superscript is a second one if it follows another. -/
theorem raise (h : Typeset p raised cs) (h' : Body q ds) :
    Typeset ((p ∨ q) ∨ raised = true) true (cs ++ '^' :: group ds) := by
  have hall : ∀ rest, tokens (cs ++ '^' :: group ds ++ rest) =
      tokens cs ++ caret :: (opening :: (tokens ds ++ [closing])) ++ tokens rest := by
    intro rest
    rw [List.append_assoc, h.whole, List.cons_append, tokens_cons (by decide), h'.tokens_group,
      List.append_assoc]
    rfl
  obtain ⟨hwhole, htokens⟩ := whole_of_tokens_append hall
  refine ⟨hwhole, ?_, ?_, fun _ => ?_, fun hpq s => ?_⟩
  · rw [htokens]
    exact h.balanced.append (.cons (by simp [Token.IsPlain]) (.group h'.balanced))
  · rw [htokens]
    rintro ((hp | hq) | hraised)
    · exact (h.doubleSuperscript hp).append_right _
    · exact ((h'.doubleSuperscript_group hq).append_left [caret]).append_left _
    · exact ⟨tokens cs, [], _, rfl, h.endsRaised hraised, List.forall_mem_nil _⟩
  · exact ⟨tokens cs, tokens ds, htokens, h'.balanced⟩
  · rw [not_or, not_or] at hpq
    obtain ⟨⟨hp, hq⟩, hraised⟩ := hpq
    -- the scan stands behind a base here, so the caret is the first
    have hcaret : Scan.step { s with phase := .base } caret = { s with phase := .caret } :=
      congrArg (Scan.mk s.opened .caret) (Bool.or_false s.doubled)
    rw [htokens, Scan.run_append, h.run hp, if_neg hraised]
    change (Scan.step { s with phase := .base } caret).run _ = _
    rw [hcaret]
    exact h'.run_group hq { s with phase := .caret }

end Typeset

/-! ### Delimiters -/

/-- Delimiters are ordinary characters, and no letters that would belong to the command in front. -/
structure IsDelimiter (c : Char) : Prop where
  ordinary : IsOrdinary c
  isAlpha : c.isAlpha = false

theorem Fence.isDelimiter (h : Fence l r) : IsDelimiter l ∧ IsDelimiter r := by
  cases h with
  | parentheses => exact ⟨⟨by decide, by decide⟩, by decide, by decide⟩
  | bars => exact ⟨⟨by decide, by decide⟩, by decide, by decide⟩

/-- A text between delimiters that grow with it. -/
def fenced (l r : Char) (cs : List Char) : List Char :=
  '\\' :: (['l', 'e', 'f', 't'] ++ [l]) ++ (cs ++ '\\' :: (['r', 'i', 'g', 'h', 't'] ++ [r]))

theorem Typeset.fence (hfence : Fence l r) (h : Body p cs) :
    Typeset p false (fenced l r cs) := by
  obtain ⟨hl, hr⟩ := hfence.isDelimiter
  obtain ⟨hleft, hleftTokens⟩ := whole_command ['l', 'e', 'f', 't']
    (by decide) (by decide) hl.isAlpha hl.ordinary.1
  obtain ⟨hright, hrightTokens⟩ := whole_command ['r', 'i', 'g', 'h', 't']
    (by decide) (by decide) hr.isAlpha hr.ordinary.1
  have htokens : tokens (fenced l r cs) =
      left :: .char l :: (tokens cs ++ [right, .char r]) := by
    rw [fenced, hleft, h.whole, hleftTokens, hrightTokens]
    rfl
  refine ⟨hleft.append (h.whole.append hright), ?_, ?_, Bool.noConfusion, fun hp s => ?_⟩
  · rw [htokens]
    exact .fence hfence h.balanced
  · rw [htokens]
    exact fun hp => ((h.doubleSuperscript hp).append_right _).append_left [left, .char l]
  · rw [htokens]
    change ((s.step left).step (.char l)).run _ = _
    rw [hl.ordinary.step]
    obtain ⟨phase, hrun⟩ := h.run hp { s with phase := .base } rfl
    change Scan.run { s with phase := .base } _ = _
    rw [Scan.run_append, hrun]
    exact hr.ordinary.step _

/-! ### Rows -/

/-- Texts in a row, one of which has a double superscript exactly where the row says so. -/
inductive Row : Prop → List (List Char) → Prop
  | nil : Row False []
  | cons {p q : Prop} {raised : Bool} {cs : List Char} {css : List (List Char)}
      (h : Typeset p raised cs) (hrow : Row q css) : Row (p ∨ q) (cs :: css)

theorem row_map {α : Type} {D : α → Prop} {text : α → List Char} {xs : List α}
    (h : ∀ x ∈ xs, ∃ raised, Typeset (D x) raised (text x)) :
    Row (∃ x ∈ xs, D x) (xs.map text) := by
  induction xs with
  | nil =>
      rw [show (∃ x ∈ [], D x) = False by simp]
      exact .nil
  | cons x xs ih =>
      obtain ⟨⟨raised, hx⟩, hxs⟩ := List.forall_mem_cons.mp h
      rw [show (∃ y ∈ x :: xs, D y) = (D x ∨ ∃ y ∈ xs, D y) by simp]
      exact .cons hx (ih hxs)

/-- Whatever stands behind the separator ends as it would without it. -/
def Separates (sep : List Char) : Prop :=
  ∀ (p : Prop) (raised : Bool) (cs : List Char), Typeset p raised cs → Typeset p raised (sep ++ cs)

theorem separates_blank : Separates [' '] :=
  fun _ _ _ h => h.behindBlank

theorem separates_mark (hc : IsOrdinary c) : Separates [c] := by
  intro p raised cs h
  have hmark : Typeset False false [c] :=
    .word (List.cons_ne_nil c []) (List.forall_mem_singleton.mpr hc)
  exact (hmark.append h).congr (iff_of_eq (false_or p))

theorem Separates.append {sep sep' : List Char} (h : Separates sep) (h' : Separates sep') :
    Separates (sep ++ sep') := by
  intro p raised cs hcs
  rw [List.append_assoc]
  exact h _ _ _ (h' _ _ _ hcs)

theorem Row.intercalate {sep : List Char} (hsep : Separates sep) {css : List (List Char)}
    (h : Row p css) (hne : css ≠ []) : ∃ raised, Typeset p raised (sep.intercalate css) := by
  induction h with
  | nil => exact absurd rfl hne
  | @cons p q raised cs css hcs hrow ih =>
      cases css with
      | nil =>
          cases hrow
          rw [List.intercalate_singleton]
          exact ⟨raised, hcs.congr (iff_of_eq (or_false p)).symm⟩
      | cons ds css =>
          obtain ⟨raised', hrest⟩ := ih (List.cons_ne_nil ds css)
          rw [List.intercalate_cons_cons, List.append_assoc]
          exact ⟨raised', hcs.append (hsep _ _ _ hrest)⟩

end Latex

end SymbolicRegression
