import ExactInference.FactorGraph.Minimal
import ExactInference.CliqueTree.Elimination
import ExactInference.CliqueTree.Extraction

/-!
# Exact inference on factor graphs

An engine answers a factor graph with its marginals or its max-marginals. A graph without free
variables only has a total. A graph with one factor over all its free variables is its own
marginal. Any other graph goes through a clique tree: it is built, messages are passed, and the
marginals are taken out, each stage under a timer.
-/

namespace ExactInference

/-- How an engine schedules message passing. -/
structure Engine where
  /-- Whether a graph's own schedule is followed. -/
  useHint : Bool
deriving DecidableEq, Repr

namespace Engine

/-- An engine that follows the schedule of a graph. -/
def standard : Engine := ⟨true⟩

variable {W L α : Type}

/-- Run a computation under a timer; the timer keeps running if the computation fails. -/
def timed (name : String) (x : Traced α) : Traced α := do
  Traced.report (.timerStarted name)
  let a ← x
  Traced.report (.timerStopped name)
  pure a

/-- Run a step of message passing on a tree and answer with the tree that it leaves. -/
def onTree (t : CliqueTree W L) (x : PassingStep W L α) : Traced (α × CliqueTree W L) :=
  match x.run ⟨t, []⟩ with
  | .ok a p => ⟨p.events, .ok (a, p.tree)⟩
  | .error fault p => ⟨p.events, .error fault⟩

variable [WeightScale W] [WeightScale L] [LogConversion W L]

/-- The factor of a graph that has no other and covers all free variables. -/
def soleFactor? (g : FactorGraph W L) : Option (Factor W L) :=
  match g.factors with
  | [f] =>
    if covers f.names g.freeNames && covers g.freeNames f.names then some f else none
  | _ => none

/-- The numbers of states of the observed variables. -/
def observedCards (g : FactorGraph W L) : OrderedMap String Int :=
  OrderedMap.ofList (g.conditioned.keys.map fun v => (v, (g.stateCountOf v : Int)))

/-- Build a tree, pass its messages and take its marginals out. -/
def throughTree (e : Engine) (mode : Mode) (lastStage : String) (g : FactorGraph W L)
    (extract : List Int → PassingStep W L α) : Traced α := do
  let tree ← timed "inference/build_clique_tree" (CliqueTree.ofGraph e.useHint g)
  let (roots, tree) ← timed "inference/message_passing" (onTree tree (Passing.run mode))
  let (result, _) ← timed lastStage (onTree tree (extract roots))
  Traced.report (.counted "inference/num_cliques" tree.size)
  Traced.report (.counted "inference/num_roots" roots.length)
  pure result

/-- The marginals of a graph and its total. -/
def marginals (e : Engine) (g : FactorGraph W L) : Traced (MarginalSet W L) :=
  let cards := observedCards g
  if g.freeNames.isEmpty then Traced.ofExcept do
    let logTotal ← g.logWeightOf (OrderedMap.empty : OrderedMap String Int)
    .ok ⟨[], logTotal, g.conditioned, cards⟩
  else
    match soleFactor? g with
    | some f => Traced.ofExcept do
      let logTotal ← f.totalLogWeight
      if LogConversion.isBottom W logTotal then throw .zeroProbability
      .ok ⟨[f], logTotal, g.conditioned, cards⟩
    | none =>
      e.throughTree .sum "inference/build_marginals" g fun roots =>
        Passing.extractMarginals roots g.conditioned cards

/-- The max-marginals of a graph. -/
def maxMarginals (e : Engine) (g : FactorGraph W L) : Traced (MaxMarginalSet W L) :=
  if g.freeNames.isEmpty then pure (MaxMarginalSet.inOrder [] g.conditioned)
  else
    match soleFactor? g with
    | some f => pure (MaxMarginalSet.inOrder [f] g.conditioned)
    | none =>
      e.throughTree .max "inference/build_max_marginals" g fun roots =>
        Passing.extractMaxMarginals roots g.conditioned

end Engine

end ExactInference
