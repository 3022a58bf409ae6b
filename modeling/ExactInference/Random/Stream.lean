import ExactInference.Random.Entropy

/-!
# Streams of random words

A stream steps through the numbers below `2 ^ 128` by a multiplication and an addition. After every
step it gives out the two halves of its number, combined and turned by an amount that the topmost
bits choose. A short word is one half of a long one, the lower half first.
-/

namespace ExactInference.Random

/-- The state of a stream. -/
structure Stream where
  /-- The number that is stepped. -/
  state : BitVec 128
  /-- What every step adds; it is odd. -/
  increment : BitVec 128
  /-- The upper half of a long word whose lower half was given out as a short word. -/
  half : Option UInt32
deriving DecidableEq, Repr

/-- A computation that draws from a stream. -/
abbrev Draw := StateM Stream

namespace Stream

/-- What every step multiplies by. -/
def multiplier : BitVec 128 := 0x2360ED051FC65DA44385DF649FCCF645#128

/-- One step. -/
def step (s : Stream) : Stream := { s with state := s.state * multiplier + s.increment }

/-- The word that a state gives out. -/
def output (state : BitVec 128) : UInt64 :=
  let halves := state.extractLsb' 64 64 ^^^ state.extractLsb' 0 64
  UInt64.ofBitVec (halves.rotateRight (state.extractLsb' 122 6).toNat)

/-- The number of two long words, of four short ones that are drawn from a pool: the first two make
the upper half. -/
def wide (words : List UInt32) : BitVec 128 :=
  BitVec.ofNat 128 (Nat.pow 2 64 * ofWords (words.take 2) + ofWords (words.drop 2))

/-- The stream of a seed. -/
def ofSeed (seed : Nat) : Stream :=
  let words := (Pool.ofSeed seed).draw 8
  let increment := wide (words.drop 4) <<< 1 ||| 1#128
  step ⟨increment + wide (words.take 4), increment, none⟩

end Stream

namespace Draw

/-- A long word. -/
def long : Draw UInt64 := do
  modify Stream.step
  pure (Stream.output (← get).state)

/-- A short word. -/
def short : Draw UInt32 := do
  match (← get).half with
  | some w =>
    modify fun s => { s with half := none }
    pure w
  | none =>
    let w ← long
    modify fun s => { s with half := some (w >>> 32).toUInt32 }
    pure w.toUInt32

/-- A seed below `2 ^ 31` for another stream. -/
def seed : Draw Nat := do pure ((← short).toNat / 2)

/-- A number of 53 binary places from zero up to one. -/
def unit : Draw Float := do pure (((← long) >>> 11).toFloat.scaleB (-53))

end Draw

end ExactInference.Random
