import ExactInference.FactorGraph.Basic

/-!
# Families of factor graphs

Chains, balanced binary trees, loops and unions of chains over variables with equally many states.
All factors are pairwise, except one prior on the first variable. The numbers in the tables come
from a `TableSource`; the structure does not depend on them.
-/

namespace ExactInference

/-- Where the numbers of a family come from: the number of the table, its row and its column give a
weight. A prior is the first row of its table. -/
structure TableSource (W : Type) where
  /-- The weight at a place of a table. -/
  weight : (table row column : Nat) → W

namespace TableSource

variable {W : Type}

/-- The rows of every table are uniform distributions over `n` states. -/
def uniform [WeightScale W] (n : Nat) : TableSource W := ⟨fun _ _ _ => WeightScale.share n⟩

variable {L : Type}

/-- The prior of a variable: the first row of a table. -/
def prior (source : TableSource W) (table : Nat) (name : String) (n : Nat) :
    Except Fault (Factor W L) :=
  Factor.plain <$> Table.ofData .plain [name] [(n : Int)] [n]
    ((List.range n).map fun j => source.weight table 0 j)

/-- A factor over two variables: a whole table. -/
def pairwise (source : TableSource W) (table : Nat) (first second : String) (n : Nat) :
    Except Fault (Factor W L) :=
  Factor.plain <$> Table.ofData .plain [first, second] [(n : Int), (n : Int)] [n, n]
    ((List.range n).flatMap fun i => (List.range n).map fun j => source.weight table i j)

end TableSource

namespace FactorGraph

variable {W L : Type}

/-- Numbered names on one stem. -/
def numberedNames (stem : String) (n : Nat) : List String :=
  (List.range n).map fun i => stem ++ toString i

/-- The graph of some variables with `n` states each and no factors. -/
def ofVariables (names : List String) (n : Nat) : Except Fault (FactorGraph W L) :=
  names.foldlM (fun g v => g.addVariable v (.labels (numberedLabels n))) empty

/-- Variables with numbered names, a prior on the first of them, and one pairwise factor for every
link. There has to be a first variable. -/
def linked (source : TableSource W) (stem : String) (count n : Nat) (links : List (Nat × Nat)) :
    Except Fault (FactorGraph W L) := do
  let g ← ofVariables (numberedNames stem count) n
  if count = 0 then throw .listIndex
  let g ← g.addFactor (← source.prior 0 (stem ++ toString 0) n)
  links.zipIdx.foldlM (fun g e => do
    let f ← source.pairwise (e.2 + 1) (stem ++ toString e.1.1) (stem ++ toString e.1.2) n
    g.addFactor f) g

/-- The links of a chain: every variable with the next one. -/
def chainLinks (count : Nat) : List (Nat × Nat) :=
  (List.range (count - 1)).map fun i => (i, i + 1)

/-- The links of a balanced binary tree: every variable with its one or two children. -/
def treeLinks (count : Nat) : List (Nat × Nat) :=
  (List.range count).flatMap fun i =>
    ([2 * i + 1, 2 * i + 2].filter (· < count)).map fun child => (i, child)

/-- A chain. -/
def chain (source : TableSource W) (stem : String) (count n : Nat) :
    Except Fault (FactorGraph W L) := linked source stem count n (chainLinks count)

/-- A balanced binary tree. -/
def binaryTree (source : TableSource W) (stem : String) (count n : Nat) :
    Except Fault (FactorGraph W L) := linked source stem count n (treeLinks count)

/-- A chain that is closed by a factor over its last and its first variable; that factor is the
first table of a source of its own. -/
def loop (source closing : TableSource W) (stem : String) (count n : Nat) :
    Except Fault (FactorGraph W L) := do
  let g ← chain source stem count n
  let f ← closing.pairwise 0 (stem ++ toString (count - 1)) (stem ++ toString 0) n
  g.addFactor f

/-- The union of graphs over different variables. -/
def union (parts : List (FactorGraph W L)) : Except Fault (FactorGraph W L) := do
  let declared ← parts.foldlM (fun g part =>
    part.freeNames.foldlM (fun g v => do
      g.addVariable v (.labels (← part.labelsOf v))) g) empty
  parts.foldlM (fun g part => part.factors.foldlM addFactor g) declared

/-- Independent chains of given lengths, each with its own source and on its own stem, and their
union. -/
def chains (parts : List (Nat × TableSource W)) (n : Nat) :
    Except Fault (FactorGraph W L × List (FactorGraph W L)) := do
  let parts ← parts.zipIdx.mapM fun e =>
    chain e.1.2 ("C" ++ toString e.2 ++ "_") e.1.1 n
  .ok (← union parts, parts)

end FactorGraph

end ExactInference
