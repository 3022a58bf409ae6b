import ExactInference.Factor

/-!
# Factor graphs

A factor graph declares discrete variables with labelled states and holds factors over them.
Observed variables keep their state; all others are free. The joint weight of a state of the free
variables is the product of the factors. A graph is a value: conditioning it makes another graph.
-/

namespace ExactInference

/-- How the states of a variable are declared. -/
inductive StateList where
  /-- By their number; the states are labelled by a letter and their index. -/
  | count (n : Int)
  /-- By their labels. -/
  | labels (names : List String)
deriving DecidableEq, Repr

/-- The labels of states that are only counted. -/
def numberedLabels (n : Nat) : List String := (List.range n).map fun i => "s" ++ toString i

/-- The labels that a declaration gives; a number below zero gives none. -/
def StateList.toLabels : StateList → List String
  | count n => numberedLabels n.toNat
  | labels names => names

/-- Variables with their states, factors over them and the observed variables. -/
structure FactorGraph (W L : Type) where
  /-- The labels of the states of every declared variable. -/
  states : OrderedMap String (List String)
  /-- The factors in the order of their arrival. -/
  factors : List (Factor W L)
  /-- The states of the observed variables. -/
  conditioned : OrderedMap String Int
  /-- A schedule for message passing: the position of each minimal factor. -/
  hint : Option (List Int)

namespace FactorGraph

variable {W L : Type}

/-- The graph without variables and factors. -/
def empty : FactorGraph W L := ⟨OrderedMap.empty, [], OrderedMap.empty, none⟩

/-- The free variables in the order of their declaration. -/
def freeNames (g : FactorGraph W L) : List String :=
  g.states.keys.filter fun v => !g.conditioned.contains v

/-- What messages tell about the graph. -/
def outline (g : FactorGraph W L) : GraphOutline :=
  ⟨g.freeNames, g.factors.length, g.conditioned.entries⟩

/-- The labels of a variable. -/
def labelsOf (g : FactorGraph W L) (name : String) : Except Fault (List String) :=
  match g.states.get? name with
  | some labels => .ok labels
  | none => .error (.unknownName name)

/-- The number of states of a declared variable; none for any other name. -/
def stateCountOf (g : FactorGraph W L) (name : String) : Nat :=
  ((g.states.get? name).getD []).length

/-- The number of states of a variable. -/
def cardinality (g : FactorGraph W L) (name : String) : Except Fault Nat :=
  List.length <$> g.labelsOf name

/-- The position of a variable in the order of declaration. -/
def variableIndex (g : FactorGraph W L) (name : String) : Except Fault Nat :=
  match g.states.keys.findIdx? (· == name) with
  | some i => .ok i
  | none => .error (.noPosition name)

/-- Declare a variable. -/
def addVariable (g : FactorGraph W L) (name : String) (states : StateList) :
    Except Fault (FactorGraph W L) :=
  if g.states.contains name then .error (.variableExists name)
  else if states.toLabels.isEmpty then .error (.noStates name)
  else .ok { g with states := g.states.insert name states.toLabels }

/-- Refuse an axis that does not fit the declared free variables. -/
def checkAxis (g : FactorGraph W L) (axis : Axis) : Except Fault Unit :=
  match g.states.get? axis.name with
  | none => .error (.notInGraph axis.name)
  | some labels =>
    if g.conditioned.contains axis.name then .error (.alreadyConditioned axis.name)
    else if labels.length ≠ axis.card then
      .error (.cardinalityExpected axis.card axis.name labels.length)
    else .ok ()

/-- Add a factor over declared free variables. -/
def addFactor (g : FactorGraph W L) (f : Factor W L) : Except Fault (FactorGraph W L) := do
  f.scope.axes.forM g.checkAxis
  .ok { g with factors := g.factors ++ [f] }

/-- Declare the variables of a factor that are not declared yet, with counted states. -/
def declareAxes (g : FactorGraph W L) (f : Factor W L) : Except Fault (FactorGraph W L) :=
  f.scope.axes.foldlM (fun g axis =>
    if g.states.contains axis.name then .ok g else g.addVariable axis.name (.count axis.card)) g

/-- The graph of some factors over the variables that they mention. -/
def ofFactors (factors : List (Factor W L)) : Except Fault (FactorGraph W L) := do
  let declared ← factors.foldlM declareAxes empty
  factors.foldlM addFactor declared

/-- The graph with a schedule for message passing. -/
def withHint {σ : Type} [StateValue σ] (g : FactorGraph W L) (order : List σ) :
    Except Fault (FactorGraph W L) := do
  let hint ← order.mapM StateValue.toInt
  .ok { g with hint := some hint }

variable [WeightScale W] [WeightScale L] [LogConversion W L]

/-- Check that an observation names a free variable and one of its states, and read the state. -/
def readObservation {σ : Type} [StateValue σ] (g : FactorGraph W L) (e : String × σ) :
    Except Fault (String × Int) :=
  match g.states.get? e.1 with
  | none => .error (.notInGraph e.1)
  | some labels =>
    if g.conditioned.contains e.1 then .error (.alreadyConditioned e.1)
    else do
      let state ← StateValue.toInt e.2
      if 0 ≤ state ∧ state < labels.length then .ok (e.1, state)
      else .error (.stateOutOfRange (StateValue.shown e.2) e.1 labels.length)

/-- The graph with more observed variables: every factor is restricted to the observed states. A
schedule is dropped, since conditioning changes the minimal factors that it counts. -/
def conditional {σ : Type} [StateValue σ] (g : FactorGraph W L) (a : OrderedMap String σ) :
    Except Fault (FactorGraph W L) := do
  let observed ← a.entries.mapM g.readObservation
  let factors ← g.factors.mapM (Factor.conditional · a)
  .ok { g with factors, conditioned := g.conditioned.insertAll observed, hint := none }

/-- Multiply the weights of factors at an assignment into a logarithm, stopping at weight zero. -/
def logWeightFrom {σ : Type} [StateValue σ] (a : OrderedMap String σ) :
    List (Factor W L) → L → Except Fault L
  | [], sum => .ok sum
  | f :: rest, sum => do
    let w ← f.logWeightOf a
    let sum := WeightScale.mul sum w
    if LogConversion.isBottom W sum then .ok sum else logWeightFrom a rest sum

/-- The logarithm of the joint weight at an assignment. -/
def logWeightOf {σ : Type} [StateValue σ] (g : FactorGraph W L) (a : OrderedMap String σ) :
    Except Fault L := logWeightFrom a g.factors WeightScale.one

/-- The joint weight at an assignment. -/
def weightOf {σ : Type} [StateValue σ] (g : FactorGraph W L) (a : OrderedMap String σ) :
    Except Fault W := do
  LogConversion.tryExp (← g.logWeightOf a)

end FactorGraph

end ExactInference
