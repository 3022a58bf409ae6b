/-!
# From a seed to words

A seed is any natural number. Its words are stirred into a pool of four, so that every word of the
pool depends on every word of the seed, and as many words as a generator needs are drawn from the
pool. Every word is scrambled with a constant of its own: the constants follow one another by
multiplication.
-/

namespace ExactInference.Random

/-- The words of a natural number, lowest first; zero has one word. -/
def wordsOf (n : Nat) : List UInt32 :=
  (List.range (n.log2 / 32 + 1)).map fun i => (n >>> (32 * i)).toUInt32

/-- Fold the upper half of a word onto its lower half. -/
def folded (w : UInt32) : UInt32 := w ^^^ (w >>> 16)

/-- Scramble a word with a constant and the one that follows it, and hand on the latter. -/
def scramble (factor constant word : UInt32) : UInt32 × UInt32 :=
  let next := constant * factor
  (next, folded ((word ^^^ constant) * next))

/-- Blend a new word into an old one. -/
def blend (old new : UInt32) : UInt32 := folded (0xCA01F9DD * old - 0x4973F715 * new)

/-- Words that are being stirred, with the constant for the next word. -/
structure Pool where
  /-- The constant for the next word. -/
  constant : UInt32
  /-- The words. -/
  words : List UInt32
deriving DecidableEq, Repr

namespace Pool

/-- The number of words in a pool. -/
def width : Nat := 4

/-- The pool without words. -/
def empty : Pool := ⟨0x43B0D7E5, []⟩

/-- Scramble a word and add it behind the others. -/
def pour (p : Pool) (word : UInt32) : Pool :=
  let (constant, w) := scramble 0x931E8875 p.constant word
  ⟨constant, p.words ++ [w]⟩

/-- Scramble a word and blend it into the word at a place. -/
def blendAt (p : Pool) (place : Nat) (word : UInt32) : Pool :=
  let (constant, w) := scramble 0x931E8875 p.constant word
  ⟨constant, p.words.modify place fun old => blend old w⟩

/-- Blend every word of the pool into every other one. -/
def stir (p : Pool) : Pool :=
  (List.range width).foldl (fun p source =>
    ((List.range width).filter (· ≠ source)).foldl
      (fun p place => p.blendAt place (p.words.getD source 0)) p) p

/-- Blend a word into every word of the pool. -/
def absorb (p : Pool) (word : UInt32) : Pool :=
  (List.range width).foldl (fun p place => p.blendAt place word) p

/-- The pool of a seed: the first words of the seed are poured in, missing ones as zero, and
stirred; the rest is absorbed. -/
def ofSeed (seed : Nat) : Pool :=
  let words := wordsOf seed
  let poured := (List.range width).foldl (fun p i => p.pour (words.getD i 0)) empty
  (words.drop width).foldl absorb poured.stir

/-- Draw words from a pool, going round it, with a first constant. -/
def drawFrom (constant : UInt32) : List UInt32 → List UInt32
  | [] => []
  | w :: ws =>
    let (next, drawn) := scramble 0x58F38DED constant w
    drawn :: drawFrom next ws

/-- The first `n` words that are drawn from a pool. -/
def draw (p : Pool) (n : Nat) : List UInt32 :=
  drawFrom 0x8B51F9DD ((List.range n).map fun i => p.words.getD (i % width) 0)

end Pool

/-- The number whose words are given, lowest first. -/
def ofWords : List UInt32 → Nat
  | [] => 0
  | w :: ws => w.toNat + Nat.pow 2 32 * ofWords ws

end ExactInference.Random
