import ExactInference.FactorGraph.Families
import ExactInference.Random.Exponential

/-!
# Families with random tables

The families of graphs with tables whose rows are random distributions. A seed fixes them: the rows
are drawn from one stream in the order in which the tables are made, the factor that closes a loop
is drawn from the stream of the next seed, and each of several chains gets a seed from the stream of
the given one. Without a seed the rows are uniform; the structure never depends on them. Loops and
unions of chains name their variables themselves.
-/

namespace ExactInference

namespace TableSource

/-- The source of some rows: the row of the prior is followed by `n` rows for every other table. -/
def ofRows (rows : Array (Array Weight)) (n : Nat) : TableSource Weight where
  weight table row column :=
    let place := if table = 0 then row else 1 + (table - 1) * n + row
    (rows.getD place #[]).getD column WeightScale.zero

/-- The source of a seed for `count` rows of `n` states. -/
def ofSeed (count n : Nat) : Option Nat → TableSource Weight
  | none => uniform n
  | some seed =>
    let rows := ((Random.distributions count n).run (Random.Stream.ofSeed seed)).1
    ofRows (rows.map List.toArray).toArray n

/-- The source for a prior and the pairwise factors of a tree over `count` variables. -/
def forTree (count n : Nat) (seed : Option Nat) : TableSource Weight :=
  ofSeed (1 + (count - 1) * n) n seed

end TableSource

namespace FactorGraph

/-- A seed has to be a natural number if there is one. -/
def checkSeed : Option Int → Except Fault (Option Nat)
  | none => .ok none
  | some s => if s < 0 then .error .negativeSeed else .ok (some s.toNat)

/-- Refuse a stem for a family that names its variables itself. -/
def checkNoStem (family : String) : Option String → Except Fault Unit
  | none => .ok ()
  | some _ => .error (.fixedNames family)

variable {L : Type}

/-- A chain with random tables. -/
def randomChain (seed : Option Int) (stem : String) (count n : Nat) :
    Except Fault (FactorGraph Weight L) := do
  chain (TableSource.forTree count n (← checkSeed seed)) stem count n

/-- A balanced binary tree with random tables. -/
def randomTree (seed : Option Int) (stem : String) (count n : Nat) :
    Except Fault (FactorGraph Weight L) := do
  binaryTree (TableSource.forTree count n (← checkSeed seed)) stem count n

/-- A loop with random tables. -/
def randomLoop (seed : Option Int) (stem? : Option String) (count n : Nat) :
    Except Fault (FactorGraph Weight L) := do
  checkNoStem "cycle" stem?
  let seed ← checkSeed seed
  loop (TableSource.forTree count n seed) (TableSource.ofSeed n n (seed.map (· + 1))) "X" count n

/-- Seeds for several parts. -/
def partSeeds (parts : Nat) : Option Nat → List (Option Nat)
  | none => List.replicate parts none
  | some seed =>
    (((List.range parts).mapM fun _ => Random.Draw.seed).run (Random.Stream.ofSeed seed)).1.map some

/-- Independent chains with random tables, and their union. -/
def randomChains (seed : Option Int) (stem? : Option String) (counts : List Nat) (n : Nat) :
    Except Fault (FactorGraph Weight L × List (FactorGraph Weight L)) := do
  checkNoStem "disconnected" stem?
  let seeds := partSeeds counts.length (← checkSeed seed)
  chains ((counts.zip seeds).map fun e => (e.1, TableSource.forTree e.1 n e.2)) n

end FactorGraph

end ExactInference
