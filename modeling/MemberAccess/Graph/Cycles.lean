import MemberAccess.Graph.Search
import MemberAccess.Sorted

/-!
Cycles of finite graphs. A graph lists its nodes with their successors; successors that are no
nodes are ignored. Nodes are told apart by their position.
-/
namespace MemberAccess

abbrev Graph (α : Type) := List (α × List α)

namespace Graph

variable {α : Type} [DecidableEq α]

/-- An edge to a node that is listed repeatedly leads to the last one. -/
def position? (g : Graph α) (node : α) : Option Nat :=
  ((g.map (·.1)).reverse.idxOf? node).map (g.length - 1 - ·)

def targets (g : Graph α) : List (List Nat) := g.map fun node => node.2.filterMap g.position?

def isCyclic (g : Graph α) (component : List Nat) : Bool :=
  1 < component.length ||
    component.head?.any fun p => g[p]?.any fun node => node.1 ∈ node.2

def cyclePositions (g : Graph α) : List (List Nat) :=
  let cyclic := (Search.all g.targets).components.filter g.isCyclic
  Sorted.insertAll (compareOn (·.headD 0))
    (cyclic.map fun component => Sorted.insertAll compare component []) []

/-- The strongly connected components that contain an edge, each in the order of the graph and
    all in the order of their first nodes. -/
def cycles (g : Graph α) : List (List α) :=
  g.cyclePositions.map fun cycle => cycle.filterMap fun p => g[p]?.map (·.1)

end Graph

end MemberAccess
