import ExactInference.Factor
import ExactInference.CliqueTree.Separator

/-!
# Clique trees

A clique tree is a list of cliques addressed by their index; an index below zero counts from the
end. Every clique holds its own factor, the marginal that grows while messages are multiplied into
it, the separators to its neighbors and the messages that it has sent. The structure never changes
after it is made; messages are only added, and nothing changes once the marginals have been taken
out.
-/

namespace ExactInference

/-- The stages in the life of a clique tree. -/
inductive Phase where
  /-- No message has been passed yet. -/
  | built
  /-- Messages are being passed. -/
  | inProgress
  /-- The marginals have been taken out. -/
  | extracted
deriving DecidableEq, Repr

/-- The word for a phase in descriptions. -/
def Phase.word : Phase → String
  | built => "built"
  | inProgress => "messages_in_progress"
  | extracted => "marginals_extracted"

/-- A node of a clique tree. -/
structure Clique (W L : Type) where
  /-- The factor that the clique was made from. -/
  factor : Factor W L
  /-- The factor times the messages that were folded in. -/
  marginal : Factor W L
  /-- The neighbors whose messages were folded in. -/
  folded : List Int
  /-- The separator to every neighbor. -/
  separators : OrderedMap Int Separator
  /-- The messages sent, by receiver. -/
  messages : OrderedMap Int (Factor W L)

/-- Add a number to a list that holds it at most once. -/
def addOnce (ns : List Int) (n : Int) : List Int := if ns.contains n then ns else ns ++ [n]

namespace Clique

variable {W L : Type}

/-- The clique of a factor before any message, without neighbors. -/
def ofFactor (f : Factor W L) : Clique W L := ⟨f, f, [], OrderedMap.empty, OrderedMap.empty⟩

/-- The neighbors in ascending order. -/
def neighbors (c : Clique W L) : List Int := ascending c.separators.keys

/-- The neighbors whose messages are not folded in, in ascending order. -/
def unfolded (c : Clique W L) : List Int := c.neighbors.filter fun n => !c.folded.contains n

end Clique

/-- Cliques joined by separators, with a schedule and the stage of message passing. -/
structure CliqueTree (W L : Type) where
  /-- The cliques, addressed by index. -/
  cliques : List (Clique W L)
  /-- The order in which cliques are visited, leaves toward roots. -/
  order : List Int
  /-- The stage. -/
  phase : Phase

namespace CliqueTree

variable {W L : Type}

/-- The clique at an index. -/
def cliqueAt (t : CliqueTree W L) (i : Int) : Except Fault (Clique W L) := elementAt t.cliques i

/-- Change the clique at an index. -/
def modifyAt (t : CliqueTree W L) (i : Int) (f : Clique W L → Clique W L) :
    Except Fault (CliqueTree W L) := do
  let place ← resolveIndex t.cliques.length i
  .ok { t with cliques := t.cliques.modify place f }

/-- Join two cliques in both directions by the variables that their factors share. -/
def join (t : CliqueTree W L) (e : Int × Int) : Except Fault (CliqueTree W L) := do
  let a ← t.cliqueAt e.1
  let b ← t.cliqueAt e.2
  let shared := a.factor.names.filter b.factor.names.contains
  let t ← t.modifyAt e.1 fun c =>
    { c with separators := c.separators.insert e.2 ⟨e.1, e.2, shared⟩ }
  t.modifyAt e.2 fun c => { c with separators := c.separators.insert e.1 ⟨e.2, e.1, shared⟩ }

/-- The tree of some factors, one for each clique, with some edges and a schedule. -/
def ofEdges (factors : List (Factor W L)) (edges : List (Int × Int)) (order : List Int) :
    Except Fault (CliqueTree W L) :=
  edges.foldlM join ⟨factors.map Clique.ofFactor, order, .built⟩

/-- The number of cliques. -/
def size (t : CliqueTree W L) : Nat := t.cliques.length

/-- The edges as pairs of a lower and a higher index, in ascending order. -/
def edges (t : CliqueTree W L) : List (Nat × Nat) :=
  t.cliques.zipIdx.flatMap fun e =>
    (e.1.neighbors.filter ((e.2 : Int) < ·)).map fun n => (e.2, n.toNat)

/-- The neighbors of a clique in ascending order. -/
def neighborsOf (t : CliqueTree W L) (i : Int) : Except Fault (List Int) :=
  Clique.neighbors <$> t.cliqueAt i

/-- The separator between two adjacent cliques. -/
def separator (t : CliqueTree W L) (start stop : Int) : Except Fault Separator := do
  match (← t.cliqueAt start).separators.get? stop with
  | some s => .ok s
  | none => .error (.noSeparator stop)

/-- All separators: clique by clique, neighbors in ascending order. -/
def separators (t : CliqueTree W L) : List Separator :=
  t.cliques.flatMap fun c => c.neighbors.filterMap c.separators.get?

/-- The message from one clique to another, if it has been sent. -/
def message? (t : CliqueTree W L) (start stop : Int) : Except Fault (Option (Factor W L)) := do
  .ok ((← t.cliqueAt start).messages.get? stop)

/-- The messages received by a clique, by separator, neighbors in ascending order. -/
def inbound (t : CliqueTree W L) (i : Int) :
    Except Fault (OrderedMap Separator (Option (Factor W L))) := do
  let c ← t.cliqueAt i
  let received ← c.neighbors.mapM fun n => do
    let m ← t.message? n i
    .ok ((c.separators.get? n).map fun s => (s, m))
  .ok (OrderedMap.ofList (received.filterMap id))

/-- The receivers of the messages that a clique has sent. -/
def sentBy (t : CliqueTree W L) (i : Int) : Except Fault (List Int) := do
  .ok (← t.cliqueAt i).messages.keys

/-- The tree in one line. -/
def line (t : CliqueTree W L) : String :=
  "CliqueTree(cliques=" ++ toString t.size ++ ", edges="
    ++ Text.links (t.edges.map fun e => ((e.1 : Int), (e.2 : Int)))
    ++ ", state=" ++ t.phase.word ++ ")"

/-- Refuse changes after the marginals were taken out. -/
def checkOpen (t : CliqueTree W L) : Except Fault Unit :=
  if t.phase = .extracted then .error .treeSpent else .ok ()

/-- Enter the stage of message passing. -/
def beginPassing (t : CliqueTree W L) : Except Fault (CliqueTree W L) := do
  t.checkOpen
  .ok { t with phase := .inProgress }

/-- Close the tree. -/
def markExtracted (t : CliqueTree W L) : Except Fault (CliqueTree W L) := do
  t.checkOpen
  .ok { t with phase := .extracted }

/-- Store a message; there is one for each direction of an edge at most. -/
def addMessage (t : CliqueTree W L) (start stop : Int) (m : Factor W L) :
    Except Fault (CliqueTree W L) := do
  t.checkOpen
  if (← t.cliqueAt start).messages.contains stop then throw (.messageExists start stop)
  t.modifyAt start fun c => { c with messages := c.messages.insert stop m }

variable [WeightScale W] [WeightScale L] [LogConversion W L]

/-- Multiply messages from neighbors into the marginal of a clique, in ascending order of the
neighbors, and answer the new marginal. Nothing changes unless all of them have been sent. -/
def fold (t : CliqueTree W L) (i : Int) (neighbors : List Int) :
    Except Fault (CliqueTree W L × Factor W L) := do
  t.checkOpen
  let c ← t.cliqueAt i
  let messages ← (ascending neighbors).mapM fun n => do
    match ← t.message? n i with
    | some m => .ok m
    | none => .error (.messageMissing n i)
  if messages.isEmpty then .ok (t, c.marginal)
  else
    let marginal ← c.marginal.productAll messages
    let t ← t.modifyAt i fun c =>
      { c with marginal, folded := neighbors.foldl addOnce c.folded }
    .ok (t, marginal)

/-- Fold every message that is not folded into a clique yet. -/
def computeMarginal (t : CliqueTree W L) (i : Int) :
    Except Fault (CliqueTree W L × Factor W L) := do
  t.fold i (← t.cliqueAt i).unfolded

end CliqueTree

end ExactInference
