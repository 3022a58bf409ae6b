import ExactInference.Arrange

/-!
# Separators

A separator stands for the edge between two adjacent cliques and holds the variables that both
share. It has a direction, which is the way that a message travels, but two separators are the
same edge if they have the same two ends in either order.
-/

namespace ExactInference

/-- An edge between cliques in the direction of a message. -/
structure Separator where
  /-- The clique that sends. -/
  start : Int
  /-- The clique that receives. -/
  stop : Int
  /-- The variables that a message keeps. -/
  shared : List String
deriving Repr

namespace Separator

/-- Whether two separators are the same edge. -/
def sameEdge (s t : Separator) : Bool :=
  (s.start = t.start ∧ s.stop = t.stop) ∨ (s.start = t.stop ∧ s.stop = t.start)

/-- As keys, separators are compared as edges. -/
instance : BEq Separator := ⟨sameEdge⟩

/-- The same edge in the other direction. -/
def reversed (s : Separator) : Separator := ⟨s.stop, s.start, s.shared⟩

/-- The different ends, the lower first. -/
def endpoints (s : Separator) : List Int :=
  if s.start = s.stop then [s.start]
  else if s.start < s.stop then [s.start, s.stop]
  else [s.stop, s.start]

/-- The ends do not depend on the direction. -/
theorem endpoints_reversed (s : Separator) : s.reversed.endpoints = s.endpoints := by
  simp only [endpoints, reversed]
  rcases Int.lt_trichotomy s.start s.stop with h | h | h
  · simp [h, Int.ne_of_lt h, Int.ne_of_gt h, Int.not_lt.mpr (Int.le_of_lt h)]
  · simp [h]
  · simp [h, Int.ne_of_lt h, Int.ne_of_gt h, Int.not_lt.mpr (Int.le_of_lt h)]

/-- The modulus of the residues. -/
def residueModulus : Int := Nat.pow 2 61 - 1

/-- The residue of an end: its remainder, with its sign; the two numbers next below zero share
one. -/
def residue (i : Int) : Int :=
  let r := i.tmod residueModulus
  if r = -1 then -2 else r

/-- Scatter the bits of a word. -/
def scatter (w : UInt64) : UInt64 :=
  ((w ^^^ (89869747 : UInt64)) ^^^ (w <<< (16 : UInt64))) * 3644798167

/-- Blend the number of ends into their mixture, and spread the result. -/
def blend (count : Nat) (mixture : UInt64) : UInt64 :=
  let w := mixture ^^^ (UInt64.ofNat (count + 1) * 1927868237)
  let w := w ^^^ ((w >>> (11 : UInt64)) ^^^ (w >>> (25 : UInt64)))
  w * 69069 + 907133923

/-- The fingerprint of an edge, a word from the residues of its different ends. No edge has the
largest word. -/
def fingerprint (s : Separator) : UInt64 :=
  let w := blend s.endpoints.length
    (s.endpoints.foldl (fun w i => w ^^^ scatter (UInt64.ofInt (residue i))) 0)
  if w = UInt64.ofInt (-1) then 590923713 else w

/-- An edge has one fingerprint in both directions. -/
theorem fingerprint_reversed (s : Separator) : s.reversed.fingerprint = s.fingerprint := by
  simp only [fingerprint, endpoints_reversed]

/-- The variables in ascending order, each once. -/
def sortedNames (s : Separator) : List String :=
  alphabetical (s.shared.foldl (fun seen v => if seen.contains v then seen else seen ++ [v]) [])

end Separator

/-- The separators on which a clique can send: the only one without a message if exactly one is
missing, all of them if none is missing, and none otherwise. -/
def computableOutbound {μ : Type} (inbound : List (Separator × Option μ)) : List Separator :=
  match inbound.filter fun e => e.2.isNone with
  | [] => inbound.map Prod.fst
  | [e] => [e.1]
  | _ => []

end ExactInference
