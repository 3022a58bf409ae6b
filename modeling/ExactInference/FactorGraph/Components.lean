import ExactInference.FactorGraph.Basic
import ExactInference.Grouping

/-!
# Connected variables

Two free variables are connected if a factor mentions both, or if other variables connect them.
-/

namespace ExactInference.FactorGraph

variable {W L : Type}

/-- The groups of connected free variables, in the order in which their first variables are
declared. -/
def connectedComponents (g : FactorGraph W L) : List (List String) :=
  groupsOf g.freeNames (g.factors.map Factor.names)

end ExactInference.FactorGraph
