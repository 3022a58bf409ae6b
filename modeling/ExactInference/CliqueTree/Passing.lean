import ExactInference.CliqueTree.Basic
import ExactInference.Event

/-!
# Message passing

A message from a clique to a neighbor is the clique's marginal with everything but the separator
summed or maximized out. Messages that have arrived are multiplied into the marginal first; if the
receiver's own message is among them, it is divided out of the result again. A run visits the
cliques along the schedule and back, and every visit sends what the clique can compute and has not
sent.

A step that fails keeps what it has changed before, so passing is a state computation whose state
survives a fault.
-/

namespace ExactInference

/-- What a message does with the variables that it drops. -/
inductive Mode where
  /-- Sum over their states. -/
  | sum
  /-- Take the largest weight over their states. -/
  | max
deriving DecidableEq, Repr

/-- A clique tree under way, with the events so far. -/
structure Passing (W L : Type) where
  /-- The tree. -/
  tree : CliqueTree W L
  /-- The events, oldest first. -/
  events : List Event

/-- A step of message passing; a fault keeps the state that it finds. -/
abbrev PassingStep (W L : Type) := EStateM Fault (Passing W L)

namespace PassingStep

variable {W L α : Type}

/-- Report an event. -/
def report (e : Event) : PassingStep W L Unit :=
  modify fun p => { p with events := p.events ++ [e] }

/-- Read something from the tree. -/
def inspect (f : CliqueTree W L → Except Fault α) : PassingStep W L α := do
  match f (← get).tree with
  | .ok a => pure a
  | .error fault => throw fault

/-- Change the tree as a whole, or not at all. -/
def change (f : CliqueTree W L → Except Fault (CliqueTree W L)) : PassingStep W L Unit := do
  let tree ← inspect f
  modify fun p => { p with tree }

/-- Change the tree as a whole, or not at all, and answer. -/
def changing (f : CliqueTree W L → Except Fault (CliqueTree W L × α)) : PassingStep W L α := do
  let (tree, a) ← inspect f
  modify fun p => { p with tree }
  pure a

end PassingStep

namespace Passing

open PassingStep

variable {W L : Type} [WeightScale W] [WeightScale L] [LogConversion W L]

/-- Sum or maximize variables out. -/
def eliminate (mode : Mode) (f : Factor W L) (names : List String) : Except Fault (Factor W L) :=
  match mode with
  | .sum => f.marginalize names
  | .max => f.maxMarginalize names

/-- The neighbors whose messages a message to one of them has to take in first: all that are not
folded, but that one only if its own message has arrived. -/
def pending (t : CliqueTree W L) (start stop : Int) : Except Fault (List Int) := do
  let c ← t.cliqueAt start
  match ← t.message? stop start with
  | some _ => .ok c.unfolded
  | none => .ok (c.unfolded.filter (· ≠ stop))

/-- The message from a marginal: only the separator's variables are kept, and what came from the
receiver is divided out. -/
def messageFrom (mode : Mode) (t : CliqueTree W L) (s : Separator) (start stop : Int)
    (marginal : Factor W L) : Except Fault (Factor W L) := do
  let message ← eliminate mode marginal
    (marginal.names.filter fun v => !s.shared.contains v)
  if (← t.cliqueAt start).folded.contains stop then
    match ← t.message? stop start with
    | some received => message.product received.invert
    | none => .error .noReverseMessage
  else .ok message

/-- Compute and store the message between two adjacent cliques. -/
def pass (mode : Mode) (start stop : Int) : PassingStep W L (Factor W L) := do
  report (.passing start stop)
  let s ← inspect (·.separator start stop)
  let marginal ← changing fun t => do t.fold start (← pending t start stop)
  let message ← inspect fun t => messageFrom mode t s start stop marginal
  change (·.addMessage start stop message)
  pure message

/-- Send what a clique can compute and has not sent, and count it as a root if it had received
everything before it sent anything. Both are decided by what has arrived when the visit starts. -/
def visit (mode : Mode) (roots : List Int) (index : Int) : PassingStep W L (List Int) := do
  let inbound ← inspect (·.inbound index)
  let sent ← inspect (·.sentBy index)
  let ready := arrange (fun s t => decide (s.stop ≤ t.stop)) (computableOutbound inbound.entries)
  (ready.filter fun s => !sent.contains s.stop).forM fun s => do
    let _ ← pass mode s.start s.stop
  if sent.isEmpty && inbound.values.all Option.isSome then pure (addOnce roots index)
  else pure roots

/-- Pass all messages, along the schedule and back, and answer the roots in ascending order. -/
def run (mode : Mode) : PassingStep W L (List Int) := do
  change CliqueTree.beginPassing
  let order := (← get).tree.order
  let roots ← (order ++ order.reverse).foldlM (visit mode) []
  report (.finished (ascending roots))
  pure (ascending roots)

/-- Fold every outstanding message into a clique. -/
def computeMarginal (index : Int) : PassingStep W L (Factor W L) :=
  changing (·.computeMarginal index)

end Passing

end ExactInference
