import ExactInference.CliqueTree.Basic
import ExactInference.Grouping

/-!
# Components and depth-first order

Cliques that edges connect form a component. The traceback order visits the components by their
lowest cliques, each in depth-first preorder from its lowest root, or from its lowest clique if it
has no root. In a preorder every clique but the first comes after one of its neighbors.
-/

namespace ExactInference

/-- Visit an item unless it was seen, and then its neighbors one after the other, each as deep as
the first argument allows. The items stand in the order in which they were first seen. -/
def visitFrom (neighbors : Nat → List Nat) : Nat → List Nat → Nat → List Nat
  | 0, seen, _ => seen
  | depth + 1, seen, u =>
    if u ∈ seen then seen
    else (neighbors u).foldl (visitFrom neighbors depth) (seen ++ [u])

/-- The items that can be reached from an item, in depth-first preorder. No path visits more items
than there are. -/
def preorder (neighbors : Nat → List Nat) (count start : Nat) : List Nat :=
  visitFrom neighbors count [] start

namespace CliqueTree

variable {W L : Type}

/-- The neighbors of a clique along the edges, in ascending order. -/
def adjacent (t : CliqueTree W L) (u : Nat) : List Nat :=
  t.edges.filterMap fun e =>
    if e.1 = u then some e.2 else if e.2 = u then some e.1 else none

/-- The components, in the order of their lowest cliques. -/
def components (t : CliqueTree W L) : List (List Nat) :=
  groupsOf (List.range t.size) (t.edges.map fun e => [e.1, e.2])

/-- The lowest of the given roots that lies in a component. -/
def rootIn? (roots : List Int) (component : List Nat) : Option Nat :=
  (component.filter fun (i : Nat) => roots.contains (i : Int)).min?

/-- The clique that the traceback of a component starts from. -/
def entryOf (roots : List Int) (component : List Nat) : Nat :=
  (rootIn? roots component).getD (component.min?.getD 0)

/-- The cliques in traceback order. -/
def tracebackOrder (t : CliqueTree W L) (roots : List Int) : List Nat :=
  t.components.flatMap fun c => preorder t.adjacent t.size (entryOf roots c)

end CliqueTree

end ExactInference
