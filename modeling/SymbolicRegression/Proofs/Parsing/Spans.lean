import SymbolicRegression.Proofs.Parsing.Embedding

/-!
# Where tokens stand

Every token covers at least one byte, and none begins before the one in front of it has ended. So
the order of the tokens is the order in which they stand in the text, two of them never begin at the
same place, and all of them begin in front of the end of the text.
-/

namespace SymbolicRegression

namespace Lexer

variable {c : Char} {cs : List Char} {kind : TokenKind} {n : Nat}

theorem pos_of_longest? (h : longest? cs = some (kind, n)) : 0 < n := by
  unfold longest? at h
  split at h
  case h_11 =>
    split at h
    · cases h
      exact Nat.succ_pos _
    · dsimp only at h
      split at h
      · cases h
      · next hpos =>
          obtain ⟨value, -, heq⟩ := Option.map_eq_some_iff.mp h
          cases heq
          omega
  all_goals cases h
  all_goals decide

theorem byteLength_take_pos (hn : 0 < n) : 0 < byteLength ((c :: cs).take n) := by
  obtain ⟨m, rfl⟩ : ∃ m, n = m + 1 := ⟨n - 1, by omega⟩
  have hc := c.utf8Size_pos
  rw [List.take_succ_cons, byteLength, List.foldr_cons]
  omega

/-- Tokens that begin at some byte or behind it, that cover at least one byte each, and of which none
begins before the one in front of it ends. -/
structure Spaced (position : Nat) (tokens : List Token) : Prop where
  behind : ∀ t ∈ tokens, position ≤ t.start
  nonempty : ∀ t ∈ tokens, t.start < t.stop
  increasing : tokens.Pairwise fun s t => s.stop ≤ t.start

theorem Spaced.mono {position later : Nat} {tokens : List Token} (hle : position ≤ later)
    (h : Spaced later tokens) : Spaced position tokens :=
  ⟨fun t ht => Nat.le_trans hle (h.behind t ht), h.nonempty, h.increasing⟩

theorem Spaced.cons {t : Token} {tokens : List Token} (ht : t.start < t.stop)
    (h : Spaced t.stop tokens) : Spaced t.start (t :: tokens) := by
  refine ⟨?_, List.forall_mem_cons.mpr ⟨ht, h.nonempty⟩,
    List.pairwise_cons.mpr ⟨h.behind, h.increasing⟩⟩
  exact List.forall_mem_cons.mpr ⟨Nat.le_refl _, fun u hu =>
    Nat.le_trans (Nat.le_of_lt ht) (h.behind u hu)⟩

theorem spaced_of_tokensFrom : ∀ {position : Nat} {cs : List Char} {tokens : List Token},
    tokensFrom position cs = .ok tokens → Spaced position tokens := by
  refine tokensFrom_spans_induction (motive := fun position _ tokens => Spaced position tokens)
    (fun _ => ⟨List.forall_mem_nil _, List.forall_mem_nil _, List.Pairwise.nil⟩)
    (fun _ _ _ _ _ ih => ih.mono (Nat.le_add_right _ _)) ?_
  intro position c cs kind n tokens _ hlongest ih
  have hpos : 0 < byteLength ((c :: cs).take n) := byteLength_take_pos (pos_of_longest? hlongest)
  exact Spaced.cons (t := ⟨kind, position, _⟩) (Nat.lt_add_of_pos_right hpos) ih

/-- The tokens of a text begin one behind the other. -/
theorem pairwise_start_of_tokenize {text : String} {tokens : List Token}
    (h : tokenize text = .ok tokens) : tokens.Pairwise fun s t => s.start < t.start := by
  have hspaced := spaced_of_tokensFrom h
  refine hspaced.increasing.imp_of_mem fun {s t} hs _ hle => ?_
  exact Nat.lt_of_lt_of_le (hspaced.nonempty s hs) hle

/-! ## The end of the text -/

theorem byteLength_append (cs cs' : List Char) :
    byteLength (cs ++ cs') = byteLength cs + byteLength cs' := by
  induction cs with
  | nil => exact (Nat.zero_add _).symm
  | cons c cs ih =>
      have hcons : ∀ cs, byteLength (c :: cs) = c.utf8Size + byteLength cs := fun _ => rfl
      rw [List.cons_append, hcons, hcons, ih, Nat.add_assoc]

theorem byteLength_toList (text : String) : byteLength text.toList = text.utf8ByteSize := by
  have hlist : ∀ cs, byteLength cs = (String.ofList cs).utf8ByteSize := by
    intro cs
    induction cs with
    | nil => rfl
    | cons c cs ih =>
        have hcons : String.ofList (c :: cs) = String.singleton c ++ String.ofList cs := by
          rw [String.singleton_eq_ofList, ← String.ofList_append]
          rfl
        rw [hcons, String.utf8ByteSize_append, String.utf8ByteSize_singleton, ← ih]
        rfl
  rw [hlist, String.ofList_toList]

theorem stop_le_of_tokensFrom : ∀ {position : Nat} {cs : List Char} {tokens : List Token},
    tokensFrom position cs = .ok tokens → ∀ t ∈ tokens, t.stop ≤ position + byteLength cs := by
  refine tokensFrom_spans_induction
    (motive := fun position cs tokens => ∀ t ∈ tokens, t.stop ≤ position + byteLength cs)
    (fun _ => List.forall_mem_nil _) ?_ ?_
  · intro position c cs tokens _ ih t ht
    have hle := ih t ht
    rw [Nat.add_assoc] at hle
    exact hle
  · intro position c cs kind n tokens _ hlongest ih
    obtain ⟨m, rfl⟩ : ∃ m, n = m + 1 := ⟨n - 1, by have := pos_of_longest? hlongest; omega⟩
    have hsplit : byteLength (c :: cs) =
        byteLength ((c :: cs).take (m + 1)) + byteLength (cs.drop m) := by
      rw [← List.drop_succ_cons (a := c), ← byteLength_append, List.take_append_drop]
    rw [hsplit, ← Nat.add_assoc]
    exact List.forall_mem_cons.mpr ⟨Nat.le_add_right _ _, ih⟩

/-- Every token of a text begins in front of the end of the text. -/
theorem start_lt_of_tokenize {text : String} {tokens : List Token}
    (h : tokenize text = .ok tokens) : ∀ t ∈ tokens, t.start < text.utf8ByteSize := by
  intro t ht
  have hstop := stop_le_of_tokensFrom h t ht
  rw [byteLength_toList, Nat.zero_add] at hstop
  exact Nat.lt_of_lt_of_le ((spaced_of_tokensFrom h).nonempty t ht) hstop

end Lexer

end SymbolicRegression
