import ExactInference.FactorGraph.Basic

/-!
# The joint weight of a graph

A graph stands for one function: the weight of every joint state of its free variables, which is the
product of its factors there. A new factor multiplies the weights, and an observation reads them at
the observed states. The sum over all joint states is the partition function.
-/

namespace ExactInference.FactorGraph

variable {W L : Type}

/-- The free variables with their numbers of states. -/
def freeAxes (g : FactorGraph W L) : List Axis := g.freeNames.map fun n => ⟨n, g.stateCountOf n⟩

variable [WeightScale W] [WeightScale L] [LogConversion W L]

/-- The product of some factors at a joint state. -/
def productAt (factors : List (Factor W L)) (x : JointState) : W :=
  (factors.map fun f => f.weights.weightAt x).foldl WeightScale.mul WeightScale.one

/-- The joint weight at a joint state. -/
def jointWeightAt (g : FactorGraph W L) (x : JointState) : W := productAt g.factors x

/-- The joint weights of all joint states that agree with `x` off some axes, added up. -/
def jointWeightOver (g : FactorGraph W L) (axes : List Axis) (x : JointState) : W :=
  WeightScale.total ((completions axes x).map g.jointWeightAt)

/-- The sum of all joint weights. -/
def partitionFunction (g : FactorGraph W L) : W := g.jointWeightOver g.freeAxes JointState.origin

/-- The product of one more factor has that factor last. -/
theorem productAt_concat (factors : List (Factor W L)) (f : Factor W L) (x : JointState) :
    productAt (factors ++ [f]) x
      = WeightScale.mul (productAt factors x) (f.weights.weightAt x) := by
  simp [productAt, List.foldl_append]

/-- The scope of a factor is the scope of its table of weights. -/
theorem scope_weights (f : Factor W L) : f.weights.scope = f.scope := by
  cases f with
  | plain t => rfl
  | log t => rfl

/-- A product only looks at the names of its factors. -/
theorem productAt_congr {factors : List (Factor W L)} {x y : JointState}
    (h : ∀ f ∈ factors, ∀ n ∈ f.names, x n = y n) : productAt factors x = productAt factors y := by
  have hmap : (factors.map fun f => f.weights.weightAt x)
      = factors.map fun f => f.weights.weightAt y := by
    refine List.map_congr_left fun f hf => f.weights.weightAt_congr fun n hn => h f hf n ?_
    simpa [Factor.names, Table.names, scope_weights] using hn
  simp only [productAt, hmap]

@[simp] theorem jointWeightAt_empty (x : JointState) :
    (empty : FactorGraph W L).jointWeightAt x = WeightScale.one := rfl

/-- A new factor multiplies every joint weight. -/
theorem jointWeightAt_addFactor {g h : FactorGraph W L} {f : Factor W L}
    (hh : g.addFactor f = .ok h) (x : JointState) :
    h.jointWeightAt x = WeightScale.mul (g.jointWeightAt x) (f.weights.weightAt x) := by
  unfold addFactor at hh
  cases hc : f.scope.axes.forM g.checkAxis with
  | error fault => simp [hc, bind, Except.bind] at hh
  | ok _ =>
    simp only [hc, bind, Except.bind, Except.ok.injEq] at hh
    subst hh
    exact productAt_concat g.factors f x

end ExactInference.FactorGraph
