import ExactInference.Arrange
import ExactInference.FactorGraph.Basic

/-!
# Minimal factors

A factor whose variables are covered by another factor can be multiplied into it without making
any table larger. Factors are visited from the largest scope to the smallest, equally large ones
in their order; each joins the first cluster whose keeper covers it, or starts a cluster of its
own. The clusters are then multiplied out in the order of their keepers, and every free variable
that no factor mentions gets a uniform factor.
-/

namespace ExactInference

variable {W L : Type}

/-- A kept factor with the factors that it absorbs, each with its place in the graph. -/
structure Cluster (W L : Type) where
  /-- The place of the kept factor. -/
  place : Nat
  /-- The kept factor. -/
  keeper : Factor W L
  /-- The absorbed factors with their places, in the order of absorption. -/
  absorbed : List (Nat × Factor W L)

/-- Whether all names of the first list stand in the second. -/
def covers (large small : List String) : Bool := small.all large.contains

namespace Cluster

/-- Put a factor into the first cluster whose keeper covers it, or into a new one. -/
def absorb (clusters : List (Cluster W L)) (f : Factor W L × Nat) : List (Cluster W L) :=
  match clusters with
  | [] => [⟨f.2, f.1, []⟩]
  | c :: rest =>
    if covers c.keeper.names f.1.names then
      { c with absorbed := c.absorbed ++ [(f.2, f.1)] } :: rest
    else c :: absorb rest f

/-- The clusters of some factors. -/
def ofFactors (factors : List (Factor W L)) : List (Cluster W L) :=
  let bySize := arrange (fun a b => decide (b.1.names.length ≤ a.1.names.length)) factors.zipIdx
  arrange (fun a b => decide (a.place ≤ b.place)) (bySize.foldl absorb [])

variable [WeightScale W] [WeightScale L] [LogConversion W L]

/-- Multiply the absorbed factors into the kept one, in the order of their places. -/
def merged (c : Cluster W L) : Except Fault (Factor W L) :=
  let others := arrange (fun a b => decide (a.1 ≤ b.1)) c.absorbed
  c.keeper.productAll (others.map Prod.snd)

end Cluster

namespace FactorGraph

variable [WeightScale W] [WeightScale L] [LogConversion W L]

/-- Whether some factor mentions a variable. -/
def mentions (g : FactorGraph W L) (name : String) : Bool :=
  g.factors.any fun f => f.names.contains name

/-- The factors after merging what another factor covers, and a uniform factor for every free
variable that is not mentioned. -/
def minimalFactors (g : FactorGraph W L) : Except Fault (List (Factor W L)) := do
  let kept ← (Cluster.ofFactors g.factors).mapM Cluster.merged
  let bare := g.freeNames.filter fun v => !g.mentions v
  .ok (kept ++ bare.map fun v => Factor.uniformOver v (g.stateCountOf v))

end FactorGraph

end ExactInference
