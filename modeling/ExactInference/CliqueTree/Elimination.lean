import ExactInference.FactorGraph.Minimal
import ExactInference.CliqueTree.Basic
import ExactInference.Event

/-!
# Building a clique tree by elimination

A clique that holds a variable of no other remaining clique can be taken out if some remaining
clique holds all its other variables: the two are joined by an edge, and the clique's own
variables are gone. A clique that shares nothing closes its component, without an edge. Variables
are tried in the order of their declaration; among the cliques to merge into, the one with the
fewest weights other than zero is taken, and of those the first. A graph whose cliques cannot all
be taken out has no clique tree over its own scopes.
-/

namespace ExactInference

/-- The books of an elimination. -/
structure Elimination where
  /-- The variables of every clique. -/
  scopes : List (List String)
  /-- The number of weights other than zero of every clique. -/
  sizes : List Nat
  /-- The remaining cliques that hold a variable. -/
  holders : OrderedMap String (List Nat)
  /-- The variables that a given number of remaining cliques hold. -/
  byCount : OrderedMap Nat (List String)
  /-- The cliques that are not taken out, in ascending order. -/
  remaining : List Nat
  /-- The edges from a clique taken out to the clique that it was merged into. -/
  edges : List (Nat × Nat)
  /-- The cliques taken out. -/
  order : List Nat
  /-- The cliques that closed a component, each with the clique that came next. -/
  closings : List (Nat × Nat)
deriving Repr

namespace Elimination

/-- The remaining cliques that hold a variable. -/
def holdersOf (e : Elimination) (v : String) : List Nat := (e.holders.get? v).getD []

/-- The variables that a number of remaining cliques hold. -/
def withCount (e : Elimination) (n : Nat) : List String := (e.byCount.get? n).getD []

/-- The variables of a clique. -/
def scopeOf (e : Elimination) (i : Nat) : List String := e.scopes.getD i []

/-- The number of weights other than zero of a clique. -/
def sizeOf (e : Elimination) (i : Nat) : Nat := e.sizes.getD i 0

/-- Enter a variable under the number of its holders. -/
def enter (counts : OrderedMap Nat (List String)) (n : Nat) (v : String) :
    OrderedMap Nat (List String) :=
  let vs := (counts.get? n).getD []
  counts.insert n (if vs.contains v then vs else vs ++ [v])

/-- The books before anything is taken out. -/
def start (scopes : List (List String)) (sizes : List Nat) : Elimination :=
  let holders := scopes.zipIdx.foldl (fun m e =>
    e.1.foldl (fun m v => m.insert v ((m.get? v).getD [] ++ [e.2])) m) OrderedMap.empty
  { scopes, sizes, holders
    byCount := holders.entries.foldl (fun m e => enter m e.2.length e.1) OrderedMap.empty
    remaining := List.range scopes.length
    edges := [], order := [], closings := [] }

/-- The variables of a clique that other remaining cliques hold as well. -/
def retained (e : Elimination) (i : Nat) : List String :=
  (e.scopeOf i).filter fun v => 1 < (e.holdersOf v).length

/-- The other remaining cliques that hold all of some variables, of which there is at least one. -/
def candidates (e : Elimination) (i : Nat) : List String → List Nat
  | [] => []
  | v :: vs => (e.holdersOf v).filter fun j =>
      j ≠ i && vs.all fun w => (e.holdersOf w).contains j

/-- Whether a clique is preferred to another one: it has fewer weights other than zero, or as many
and a lower index. -/
def preferred (e : Elimination) (i j : Nat) : Bool :=
  e.sizeOf i < e.sizeOf j || (e.sizeOf i = e.sizeOf j && i ≤ j)

/-- The clique that no other candidate is preferred to. -/
def best? (e : Elimination) : List Nat → Option Nat
  | [] => none
  | i :: is => some (is.foldl (fun b j => if e.preferred b j then b else j) i)

/-- Strike a clique from the holders of one of its variables. -/
def release (i : Nat) (e : Elimination) (v : String) : Elimination :=
  let holders := e.holdersOf v
  let n := holders.length
  let counts := e.byCount.insert n ((e.withCount n).filter (· ≠ v))
  { e with
    byCount := if n > 1 then enter counts (n - 1) v else counts
    holders := e.holders.insert v (holders.filter (· ≠ i)) }

/-- Strike a clique from all books. -/
def takeOut (e : Elimination) (i : Nat) : Elimination :=
  let e := (e.scopeOf i).foldl (release i) e
  { e with remaining := e.remaining.filter (· ≠ i), order := e.order ++ [i] }

/-- Take a clique out, if a remaining clique holds all that it shares. -/
def eliminate? (e : Elimination) (i : Nat) : Option Elimination :=
  match e.retained i with
  | [] => do
    let next ← (e.remaining.filter (· ≠ i)).min?
    some ({ e with closings := e.closings ++ [(i, next)] }.takeOut i)
  | vs => do
    let target ← e.best? (e.candidates i vs)
    some ({ e with edges := e.edges ++ [(i, target)] }.takeOut i)

/-- The variables of one remaining clique only, in the order of their ranks. -/
def singles (rank : String → Nat) (e : Elimination) : List String :=
  arrange (fun v w => decide (rank v ≤ rank w)) (e.withCount 1)

/-- Take out the clique of the first variable that allows it. -/
def step? (rank : String → Nat) (e : Elimination) : Option Elimination :=
  (e.singles rank).findSome? fun v =>
    match e.holdersOf v with
    | [i] => e.eliminate? i
    | _ => none

/-- Take out a number of cliques; the books at which that is stuck are the error. -/
def exhaust (rank : String → Nat) : Nat → Elimination → Except Elimination Elimination
  | 0, e => .ok e
  | n + 1, e =>
    match e.step? rank with
    | some e => exhaust rank n e
    | none => .error e

/-- Take out all cliques but one. -/
def run (rank : String → Nat) (e : Elimination) : Except Elimination Elimination :=
  exhaust rank (e.scopes.length - 1) e

/-- The events that an elimination reports. -/
def events (e : Elimination) : List Event := e.closings.map fun c => .closing c.1 c.2

end Elimination

/-- The place of a name in a list; a name that is not listed comes after all others. -/
def rankIn (names : List String) (v : String) : Nat := names.findIdx (· == v)

/-- The schedule that a hint gives: clique `i` is visited at position `hint[i]`. The hint has to
be a permutation of the positions. -/
def orderOfHint (hint : List Int) (n : Nat) : Except Fault (List Nat) :=
  if hint.isPerm ((List.range n).map Int.ofNat) then
    .ok (arrange (fun i j => decide (hint.getD i 0 ≤ hint.getD j 0)) (List.range n))
  else .error (.badHint hint n)

namespace CliqueTree

variable {W L : Type} [WeightScale W] [WeightScale L] [LogConversion W L]

/-- The schedule of a tree: the order of elimination, or that of the graph's hint if it has one
and it is to be used. -/
def scheduleFor (useHint : Bool) (hint : Option (List Int)) (found : List Nat) :
    Except Fault (List Nat) :=
  match useHint, hint with
  | true, some h => orderOfHint h found.length
  | _, _ => .ok found

/-- The clique tree of a factor graph: one clique for each minimal factor. -/
def ofGraph (useHint : Bool) (g : FactorGraph W L) : Traced (CliqueTree W L) := do
  let factors ← Traced.ofExcept g.minimalFactors
  if factors.isEmpty then Traced.ofExcept (.error (.noFactors g.outline))
  else
    let books := Elimination.start (factors.map Factor.names) (factors.map Factor.size)
    match books.run (rankIn g.freeNames) with
    | .error stuck => do
      Traced.reportAll stuck.events
      Traced.ofExcept (.error (.needsFillIn g.outline (stuck.remaining.map stuck.scopeOf)))
    | .ok done => do
      Traced.reportAll done.events
      let order ← Traced.ofExcept (scheduleFor useHint g.hint (done.order ++ done.remaining))
      Traced.report (.treeBuilt done.edges order)
      Traced.ofExcept (CliqueTree.ofEdges factors
        (done.edges.map fun e => ((e.1 : Int), (e.2 : Int))) (order.map Int.ofNat))

end CliqueTree

end ExactInference
