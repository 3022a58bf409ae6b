import ExactInference.CliqueTree.Passing
import ExactInference.CliqueTree.Traversal
import ExactInference.MarginalSet
import ExactInference.MaxMarginalSet

/-!
# Taking the marginals out of a tree

Once all messages are passed, every clique folds what it has received and its marginal is final.
In sum mode the total is the product of the totals of the roots, one for each component; with
several roots the marginals of a component are scaled by the totals of the others, so that all of
them sum to the total of the whole tree. In max mode the marginals are handed on with the
traceback order.
-/

namespace ExactInference.Passing

open PassingStep

variable {W L : Type} [WeightScale W] [WeightScale L] [LogConversion W L]

/-- Fold the outstanding messages of every clique, and close the tree. -/
def takeMarginals : PassingStep W L (List (Factor W L)) := do
  let n := (← get).tree.size
  let marginals ← (List.range n).mapM fun (i : Nat) => computeMarginal (i : Int)
  change CliqueTree.markExtracted
  pure marginals

/-- The logarithm of the product of the totals of the roots. -/
def logTotalOf (marginals : List (Factor W L)) (roots : List Int) : Except Fault L :=
  roots.foldlM (fun sum root => do
    .ok (WeightScale.mul sum (← (← elementAt marginals root).totalLogWeight))) WeightScale.one

/-- Scale the marginals of one component so that they sum to the total of the whole tree. -/
def rescaleComponent (logTotal : L) (roots : List Int) (marginals : List (Factor W L))
    (component : List Nat) : Except Fault (List (Factor W L)) := do
  match CliqueTree.rootIn? roots component with
  | none => .error .emptyMinimum
  | some root =>
    let own ← (← elementAt marginals (root : Int)).totalLogWeight
    let offset := WeightScale.quotient logTotal own
    component.foldlM (fun ms (i : Nat) => do
      let scaled ← (← elementAt ms (i : Int)).scaleLog offset
      .ok (ms.set i scaled)) marginals

/-- The marginal set of final marginals. A root that is given twice counts once. -/
def assemble (t : CliqueTree W L) (marginals : List (Factor W L)) (given : List Int)
    (conditioned cards : OrderedMap String Int) : Except Fault (MarginalSet W L) := do
  let roots := given.foldl addOnce []
  if roots.isEmpty then throw .noRoot
  let logTotal ← logTotalOf marginals (ascending roots)
  if LogConversion.isBottom W logTotal then throw .zeroProbability
  let scaled ←
    if roots.length > 1 then t.components.foldlM (rescaleComponent logTotal roots) marginals
    else .ok marginals
  .ok ⟨scaled, logTotal, conditioned, cards⟩

/-- Take out the marginals of a tree whose messages were summed. -/
def extractMarginals (roots : List Int) (conditioned cards : OrderedMap String Int) :
    PassingStep W L (MarginalSet W L) := do
  let marginals ← takeMarginals
  inspect fun t => assemble t marginals roots conditioned cards

/-- Take out the marginals of a tree whose messages were maximized. -/
def extractMaxMarginals (roots : List Int) (conditioned : OrderedMap String Int) :
    PassingStep W L (MaxMarginalSet W L) := do
  let marginals ← takeMarginals
  inspect fun t => .ok ⟨marginals, conditioned, (t.tracebackOrder roots).map Int.ofNat⟩

end ExactInference.Passing
