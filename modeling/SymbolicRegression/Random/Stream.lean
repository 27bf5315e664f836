/-!
# Random streams

A stream is a 64-bit counter with an odd step; a draw advances it and mixes it by one full product.
Ranges and unit floats are obtained by rejection: a draw that would bias the result is dropped and
the next one is taken. Since the counter visits all `2 ^ 64` states before it repeats, that number
bounds every rejection loop.
-/

namespace SymbolicRegression

structure Stream where
  state : UInt64
  deriving Repr, DecidableEq

namespace Stream

def ofSeed (seed : UInt64) : Stream := ⟨seed⟩

/-- One word and the advanced stream: the two halves of the product of the state with its masked
self are folded together. -/
def next (s : Stream) : UInt64 × Stream :=
  let state := s.state + 0x2d358dccaa6c78a5
  let product := state.toNat * (state ^^^ 0x8bb84b93962eacc9).toNat
  (product.toUInt64 ^^^ (product / Nat.pow 2 64).toUInt64, ⟨state⟩)

/-- A fair choice: is the low byte of a word even? -/
def coin (s : Stream) : Bool × Stream :=
  let (word, s) := s.next
  (word % 2 == 0, s)

/-- How many draws a rejection loop may take: one for each state. -/
def period : Nat := Nat.pow 2 64

/-- A number in `[0, 1)` with up to 63 random bits; a draw that rounds up to one is dropped. -/
def unit (s : Stream) : Float × Stream :=
  go period s
where
  go : Nat → Stream → Float × Stream
    | 0, s => (0, s)
    | fuel + 1, s =>
      let (word, s) := s.next
      let x := (word >>> 1).toFloat / 9223372036854775808
      if x < 1 then (x, s) else go fuel s

/-- A number below `n`: the high word of the product of a draw with `n`. Draws whose low word falls
into the short first interval are dropped, so that every result is equally likely. -/
def below (n : Nat) (s : Stream) : Nat × Stream :=
  go period s
where
  go : Nat → Stream → Nat × Stream
    | 0, s => (0, s)
    | fuel + 1, s =>
      let (word, s) := s.next
      let product := word.toNat * n
      if product % Nat.pow 2 64 < (Nat.pow 2 64 - n) % n then go fuel s
      else (product / Nat.pow 2 64, s)

/-- A number between `low` and `high`, both included; no draw where they leave no choice. -/
def between (low high : Nat) (s : Stream) : Nat × Stream :=
  if high ≤ low then (low, s)
  else
    let span := high - low + 1
    if span = Nat.pow 2 64 then
      let (word, s) := s.next
      (low + word.toNat, s)
    else
      let (n, s) := s.below span
      (low + n, s)

/-- One of the values, if there is any; no draw from an empty list. -/
def choose? {α : Type} (values : List α) (s : Stream) : Option α × Stream :=
  if values.isEmpty then (none, s)
  else
    let (i, s) := s.below values.length
    (values[i]?, s)

/-- A draw from the normal distribution with mean zero and deviation one, by the polar form of two
unit draws; a first draw of zero is raised to the smallest normal number. -/
def normal (s : Stream) : Float × Stream :=
  let (u, s) := s.unit
  let (v, s) := s.unit
  let smallest := Float.ofBits 0x0010000000000000
  let u := if u < smallest then smallest else u
  ((-2.0 * u.log).sqrt * (2.0 * 3.141592653589793 * v).cos, s)

end Stream

end SymbolicRegression
