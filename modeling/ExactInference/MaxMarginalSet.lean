import ExactInference.CliqueTree.Basic

/-!
# Max-marginal sets

The result of maximizing: one factor for each clique, the observed variables, and the order in
which the factors are decoded. Decoding fixes the variables of one factor after the other at the
best joint state that agrees with what is fixed already.
-/

namespace ExactInference

/-- Max-marginals with the order of their decoding. -/
structure MaxMarginalSet (W L : Type) where
  /-- The max-marginals. -/
  factors : List (Factor W L)
  /-- The states of the observed variables. -/
  conditioned : OrderedMap String Int
  /-- The factors to decode, by index. -/
  order : List Int

namespace MaxMarginalSet

variable {W L : Type}

/-- The set whose factors are decoded as they are listed. -/
def inOrder (factors : List (Factor W L)) (conditioned : OrderedMap String Int) :
    MaxMarginalSet W L :=
  ⟨factors, conditioned, (List.range factors.length).map Int.ofNat⟩

/-- The set in one line. -/
def line (m : MaxMarginalSet W L) : String :=
  "FactorMaxMarginalSet(factors=" ++ toString m.factors.length ++ ")"

variable [WeightScale W] [WeightScale L] [LogConversion W L]

/-- Fix the variables of a factor that are not fixed yet. -/
def decode (m : MaxMarginalSet W L) (fixed : OrderedMap String Int) (index : Int) :
    Except Fault (OrderedMap String Int) := do
  let f ← elementAt m.factors index
  let rest ← f.conditional fixed
  if rest.names.isEmpty then .ok fixed
  else
    let best ← rest.argmax
    .ok (fixed.insertAll (best.map fun e => (e.1, (e.2 : Int))))

/-- A joint state of largest weight that agrees with the observed variables. -/
def bestAssignment (m : MaxMarginalSet W L) : Except Fault (OrderedMap String Int) :=
  m.order.foldlM m.decode m.conditioned

end MaxMarginalSet

end ExactInference
