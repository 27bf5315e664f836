import SymbolicRegression.Fitness
import SymbolicRegression.Generation
import SymbolicRegression.Options

/-!
# Searching

One round of the search generates a batch of candidates, fits and scores each of them on its own,
and ranks them. A draw that fails is retried a few times; a candidate that never succeeds is left
out, and only a batch without any candidate is an error.
-/

namespace SymbolicRegression

inductive SearchError where
  | dataset (error : DatasetError)
  | generation (error : GenerationError)

namespace SearchError

def message : SearchError → String
  | dataset error => error.message
  | generation error => "no candidate could be generated: " ++ error.message

end SearchError

/-- The outcome of a draw as a value. What the draw consumed stays consumed when it fails. -/
def Draw.attempt {α : Type} (draw : Draw α) : Draw (Except GenerationError α) := fun s =>
  match draw s with
  | some (outcome, s) => some (.ok outcome, s)
  | none => none

namespace Options

def policy (o : Options) : Policy :=
  if o.grow then Policy.grow o.terminalRatio else Policy.full

def drawTree (o : Options) (registry : Registry) : Draw Tree :=
  generate registry o.minHeight o.maxHeight o.policy none

/-- A tree by at most `retries + 1` draws. A range of heights that holds none is not tried again. -/
def drawRetrying (o : Options) (registry : Registry) : (retries : Nat) → Draw Tree
  | 0 => o.drawTree registry
  | retries + 1 => do
    match ← (o.drawTree registry).attempt with
    | .ok tree => return tree
    | .error (.invalidHeights low high) => throw (.invalidHeights low high)
    | .error (.exhausted _ _) => drawRetrying o registry retries

/-- What a batch of draws has given so far: the individuals and the last error. -/
structure Batch where
  individuals : Array Individual := #[]
  failed : Nat := 0
  lastError : Option GenerationError := none

/-- The most candidates that a batch has room for: each of them takes 48 bytes, and a block of
memory is smaller than `2 ^ 63` bytes. -/
def Batch.capacity : Nat := (Nat.pow 2 63 - 1) / 48

def drawBatch (o : Options) (registry : Registry) : (n : Nat) → Batch → Draw Batch
  | 0, batch => return batch
  | n + 1, batch => do
    match ← (o.drawRetrying registry o.generationRetries).attempt with
    | .ok tree =>
      drawBatch o registry n
        { batch with individuals := batch.individuals.push { nodes := tree.preorder } }
    | .error e =>
      drawBatch o registry n { batch with failed := batch.failed + 1, lastError := some e }

end Options

/-- Draws the requested number of candidates and says how many of them failed. The last error is
reported if there was one and no candidate at all. Room for the batch is made before the first draw,
so a request beyond the capacity has no outcome. -/
def generateCandidates (registry : Registry) (o : Options) : Draw (List Individual × Nat) :=
  if Options.Batch.capacity < o.candidates then Draw.endless
  else do
    let batch ← o.drawBatch registry o.candidates {}
    match batch.lastError with
    | some e =>
      if batch.individuals.isEmpty then throw e
      else return (batch.individuals.toList, batch.failed)
    | none => return (batch.individuals.toList, batch.failed)

/-- The place of a 64-bit pattern in the total order of doubles, in which negative zero comes before
zero and undefined values come last, or first where their sign is negative. -/
def totalOrderKey (bits : UInt64) : Nat :=
  let half := Nat.pow 2 63
  if half ≤ bits.toNat then Nat.pow 2 64 - 1 - bits.toNat else half + bits.toNat

/-- Pairs individuals with their fitness and sorts the pairs by a key, the smallest first; pairs
with equal keys keep their order. -/
def rankBy {φ : Type} (key : φ → Nat) (individuals : List Individual) (fitness : List φ) :
    List (Individual × φ) :=
  (individuals.zip fitness).mergeSort fun a b => key a.2 ≤ key b.2

/-- Ranks individuals by fitness in the total order of doubles. -/
def rank (individuals : List Individual) (fitness : List Float) : List (Individual × Float) :=
  rankBy (fun x => totalOrderKey x.toBits) individuals fitness

/-- A ranked batch, the best candidate first. -/
structure SearchResult where
  ranked : List (Individual × Float)
  failed : Nat

/-- The evaluator that the options describe, on the two parts of a data set. -/
def Options.evaluator (o : Options) (registry : Registry) (data : Dataset) :
    Except DatasetError Evaluator := do
  let (train, test) ← data.splitByBlocks o.blocks
  return Evaluator.holdout registry train test o.metric.metric o.descent.optimizer
    ⟨o.trainWeight, o.complexityPenalty⟩

/-- Splits the data, generates, scores and ranks one batch. No outcome at all where generation has
none. -/
def search (registry : Registry) (data : Dataset) (o : Options) (supply : Supply) :
    Option (Except SearchError SearchResult) :=
  match o.evaluator registry data with
  | .error e => some (.error (.dataset e))
  | .ok evaluator => do
    let (outcome, _) ← generateCandidates registry o ⟨Stream.ofSeed o.seed.toUInt64, supply⟩
    match outcome with
    | .error e => return .error (.generation e)
    | .ok (individuals, failed) =>
      let scored ← evaluator.evaluateAll individuals
      return .ok ⟨rank (scored.map Prod.snd) (scored.map Prod.fst), failed⟩

end SymbolicRegression
