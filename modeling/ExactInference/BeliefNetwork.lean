import ExactInference.Engine

/-!
# Belief networks

A belief network is a directed acyclic graph of variables, each with a table of its distribution
for every joint state of its parents. A node is added after its parents, and its table is checked
against them. A query turns the network into a factor graph with one factor for each table,
declares the variables parents first, conditions it on the evidence, and asks an engine.
-/

namespace ExactInference

/-- A variable with its distribution given its parents. -/
structure Node (W : Type) where
  /-- The parents, in the order of the table's axes. -/
  parents : List String
  /-- The labels of the states. -/
  labels : List String
  /-- The shape of the table: an axis for each parent, and one for the states. -/
  shape : List Nat
  /-- The numbers of the table in row-major order. -/
  data : List W

/-- Nodes with their tables, and the evidence. -/
structure BeliefNetwork (W : Type) where
  /-- The nodes in the order of their arrival. -/
  nodes : OrderedMap String (Node W)
  /-- The states of the observed variables. -/
  observed : OrderedMap String Int

namespace BeliefNetwork

variable {W : Type}

/-- The network without nodes. -/
def empty : BeliefNetwork W := ⟨OrderedMap.empty, OrderedMap.empty⟩

/-- The labels of a node. -/
def labelsOf (n : BeliefNetwork W) (name : String) : Except Fault (List String) :=
  match n.nodes.get? name with
  | some node => .ok node.labels
  | none => .error (.unknownName name)

/-- The number of states of a node; none for any other name. -/
def cardOf (n : BeliefNetwork W) (name : String) : Nat :=
  ((n.nodes.get? name).map fun node => node.labels.length).getD 0

/-- The children of a node, in the order of their arrival. -/
def children (n : BeliefNetwork W) (name : String) : List String :=
  (n.nodes.entries.filter fun e => e.2.parents.contains name).map Prod.fst

/-- The edges, parent by parent in the order of arrival. -/
def edges (n : BeliefNetwork W) : List (String × String) :=
  n.nodes.keys.flatMap fun p => (n.children p).map fun c => (p, c)

/-- Whether all parents of a node are among some names. -/
def isReady (n : BeliefNetwork W) (taken : List String) (name : String) : Bool :=
  match n.nodes.get? name with
  | some node => node.parents.all taken.contains
  | none => false

/-- Take the nodes of a queue one by one; a child joins the queue when its last parent is taken. The
first argument bounds the number of nodes. -/
def takeReady (n : BeliefNetwork W) : Nat → List String → List String → List String
  | 0, taken, _ => taken
  | _ + 1, taken, [] => taken
  | k + 1, taken, name :: queue =>
    let taken := taken ++ [name]
    takeReady n k taken (queue ++ (n.children name).filter (n.isReady taken))

/-- The nodes, parents before children: first all nodes without parents, and then every node when
its last parent is taken. -/
def order (n : BeliefNetwork W) : List String :=
  n.takeReady n.nodes.size []
    ((n.nodes.entries.filter fun e => e.2.parents.isEmpty).map Prod.fst)

/-- The network in one line. -/
def line (n : BeliefNetwork W) : String :=
  "BeliefNetwork(nodes=" ++ Text.names n.order ++ ", edges="
    ++ Text.bracketed (n.edges.map fun e =>
        Text.parenthesized [Text.quoted e.1, Text.quoted e.2])
    ++ ", evidence=" ++ Text.states n.observed.entries ++ ")"

/-- Refuse a name that is no node. -/
def checkNode (n : BeliefNetwork W) (name : String) : Except Fault Unit :=
  if n.nodes.contains name then .ok () else .error (.notInNetwork name)

/-- Observe a node by the label or the index of its state. -/
def stateOf (n : BeliefNetwork W) (name : String) (evidence : Datum) : Except Fault Int := do
  let labels ← n.labelsOf name
  match evidence with
  | .whole _ | .truth _ =>
    let i ← evidence.toInt
    if 0 ≤ i ∧ i < labels.length then .ok i
    else .error (.stateIndexOutOfRange evidence.shown name)
  | .text label =>
    match labels.findIdx? (· == label) with
    | some i => .ok i
    | none => .error (.notALabel label name labels)
  | _ => .error (.notALabel evidence.shown name labels)

/-- Record an observation. -/
def observe (n : BeliefNetwork W) (name : String) (evidence : Datum) :
    Except Fault (BeliefNetwork W) := do
  n.checkNode name
  .ok { n with observed := n.observed.insert name (← n.stateOf name evidence) }

/-- Forget all observations. -/
def clearEvidence (n : BeliefNetwork W) : BeliefNetwork W := { n with observed := OrderedMap.empty }

variable [WeightScale W]

/-- Add a node. The checks come in this order: a table can have so many axes, the name is new, the
parents are there, the table has an axis for each of them and one more, it follows their states, no
number is below zero, and there is a label for every state. Without labels the states are numbered.
-/
def addNode (n : BeliefNetwork W) (name : String) (shape : List Nat) (data : List W)
    (parents : List String) (labels : Option (List String)) : Except Fault (BeliefNetwork W) := do
  checkAxes shape.length
  if n.nodes.contains name then throw (.nodeExists name)
  match parents.find? fun p => !n.nodes.contains p with
  | some p => throw (.parentMissing p name)
  | none => pure ()
  if shape.length ≠ parents.length + 1 then
    throw (.dimensionCount name shape.length (parents.length + 1))
  if shape.dropLast ≠ parents.map n.cardOf then
    throw (.parentShape (shape.map Int.ofNat) (parents.map fun p => (n.cardOf p : Int)))
  if data.any WeightScale.isNegative then throw (.negativeEntries name)
  let states := shape.getLast?.getD 0
  let labels := labels.getD (numberedLabels states)
  if labels.length ≠ states then throw (.labelCount labels.length name states)
  .ok { n with nodes := n.nodes.insert name ⟨parents, labels, shape, data⟩ }

variable {L : Type}

/-- The factor of a node, over its parents and then itself. -/
def factorOf (n : BeliefNetwork W) (name : String) (node : Node W) : Except Fault (Factor W L) :=
  let names := node.parents ++ [name]
  Factor.plain <$> Table.ofData .plain names (names.map fun v => (n.cardOf v : Int))
    node.shape node.data

/-- The nodes with their names, parents before children. -/
def orderedNodes (n : BeliefNetwork W) : List (String × Node W) :=
  n.order.filterMap fun name => (n.nodes.get? name).map fun node => (name, node)

variable [WeightScale L] [LogConversion W L]

/-- The factor graph of the tables, conditioned on the evidence if that is asked for. -/
def toFactorGraph (n : BeliefNetwork W) (withEvidence : Bool) : Except Fault (FactorGraph W L) := do
  let declared ← n.orderedNodes.foldlM
    (fun g e => g.addVariable e.1 (.labels e.2.labels)) FactorGraph.empty
  let g ← n.orderedNodes.foldlM (fun g e => do g.addFactor (← n.factorOf e.1 e.2)) declared
  if withEvidence && !n.observed.isEmpty then g.conditional n.observed else .ok g

/-- The distribution of a node in a factor graph. -/
def posteriorIn (engine : Engine) (g : FactorGraph W L) (query : String) : Traced (List W) := do
  let m ← engine.marginals g
  Traced.ofExcept do (← m.posterior [query]).valuesFor [query]

/-- The distribution of a node without evidence or with it. -/
def distribution (L : Type) [WeightScale L] [LogConversion W L] (engine : Engine)
    (n : BeliefNetwork W) (withEvidence : Bool) (query : String) : Traced (List W) := do
  Traced.ofExcept (n.checkNode query)
  let g : FactorGraph W L ← Traced.ofExcept (n.toFactorGraph withEvidence)
  posteriorIn engine g query

/-- The probability of the evidence; impossible evidence has the probability zero. -/
def evidenceProbability (L : Type) [WeightScale L] [LogConversion W L] (engine : Engine)
    (n : BeliefNetwork W) : Traced W := do
  let g : FactorGraph W L ← Traced.ofExcept (n.toFactorGraph true)
  let run := engine.marginals g
  Traced.reportAll run.events
  match run.answer with
  | .ok m => Traced.ofExcept m.total
  | .error .zeroProbability => pure WeightScale.zero
  | .error fault => Traced.ofExcept (.error fault)

/-- The label of a node's state in an assignment, if the assignment has the node. -/
def labelIn (assignment : OrderedMap String Int) (e : String × Node W) :
    Except Fault (Option (String × String)) :=
  match assignment.get? e.1 with
  | none => .ok none
  | some state => do .ok (some (e.1, ← elementAt e.2.labels state))

/-- The labels of a most probable joint state, parents before children. -/
def mostProbable (L : Type) [WeightScale L] [LogConversion W L] (engine : Engine)
    (n : BeliefNetwork W) : Traced (List (String × String)) := do
  let g : FactorGraph W L ← Traced.ofExcept (n.toFactorGraph true)
  let m ← engine.maxMarginals g
  Traced.ofExcept do
    let best ← m.bestAssignment
    let labels ← n.orderedNodes.mapM (labelIn best)
    .ok (labels.filterMap id)

end BeliefNetwork

end ExactInference
