/-!
# Shuffling

A shuffle goes through a list from the end and swaps each place with a random place at or before
it. It takes its random places from any source of indices, so that what a shuffle keeps can be
said for all of them. The source used for splits is a generator with a 64-bit counter, of which
each draw gives 32 bits.
-/

namespace SymbolicRegression

/-- Visits the places `n - 1, …, 1` and swaps each place `i` with the place that `index (i + 1)`
draws, a number below `i + 1`. -/
def shuffleFrom {α σ : Type} (index : Nat → σ → Nat × σ) :
    Nat → Array α → σ → Array α × σ
  | i + 2, xs, source =>
    let (j, source) := index (i + 2) source
    shuffleFrom index (i + 1) (xs.swapIfInBounds (i + 1) j) source
  | _, xs, source => (xs, source)

/-- Shuffles a list with indices from `source`. -/
def shuffle {α σ : Type} (index : Nat → σ → Nat × σ) (xs : List α) (source : σ) : List α × σ :=
  let (ys, source) := shuffleFrom index xs.length xs.toArray source
  (ys.toList, source)

theorem swapIfInBounds_perm {α : Type} (xs : Array α) (i j : Nat) :
    (xs.swapIfInBounds i j).Perm xs := by
  rw [Array.swapIfInBounds_def]
  split
  · split
    · exact Array.swap_perm _ _
    · exact Array.Perm.refl _
  · exact Array.Perm.refl _

theorem shuffleFrom_perm {α σ : Type} (index : Nat → σ → Nat × σ) (n : Nat) (xs : Array α)
    (source : σ) : (shuffleFrom index n xs source).1.Perm xs := by
  induction n generalizing xs source with
  | zero => simp [shuffleFrom]
  | succ n ih =>
    cases n with
    | zero => simp [shuffleFrom]
    | succ i =>
      simp only [shuffleFrom]
      exact (ih _ _).trans (swapIfInBounds_perm _ _ _)

/-- A shuffle keeps every element, however often it occurs. -/
theorem shuffle_perm {α σ : Type} (index : Nat → σ → Nat × σ) (xs : List α) (source : σ) :
    (shuffle index xs source).1.Perm xs := by
  have h := shuffleFrom_perm index xs.length xs.toArray source
  simpa [shuffle] using h.toList

/-- The state of the generator that splits draw from. -/
structure SplitSource where
  state : UInt64
  deriving Repr, DecidableEq

namespace SplitSource

def ofSeed (seed : UInt64) : SplitSource := ⟨seed⟩

/-- The high half of one mixed word, and the advanced source. -/
def next (s : SplitSource) : Nat × SplitSource :=
  let state := s.state + 0x9E3779B97F4A7C15
  let z := (state ^^^ (state >>> 30)) * 0xBF58476D1CE4E5B9
  let z := (z ^^^ (z >>> 27)) * 0x94D049BB133111EB
  let z := z ^^^ (z >>> 31)
  (z.toNat / Nat.pow 2 32, ⟨state⟩)

/-- A number below `n`: the high word of the product of a draw with `n`. A draw whose low word lies
past the last full interval is dropped. -/
def index (n : Nat) (s : SplitSource) : Nat × SplitSource :=
  go (Nat.pow 2 64) s
where
  go : Nat → SplitSource → Nat × SplitSource
    | 0, s => (0, s)
    | fuel + 1, s =>
      let zone := n * Nat.pow 2 (31 - n.log2) - 1
      let (v, s) := s.next
      if v * n % Nat.pow 2 32 ≤ zone then (v * n / Nat.pow 2 32, s) else go fuel s

end SplitSource

end SymbolicRegression
