import ClientScript.Graph.Digraph
import ClientScript.Graph.Marks

/-!
Depth-first order. The search works through a list of nodes to enter and nodes to leave. Successors
are taken in edge order.
-/
namespace ClientScript

namespace Adjacency

inductive Visit where
  | enter (v : Nat)
  | leave (v : Nat)

def postorderFrom (next : Nat → List Nat) : List Visit → Marks → List Nat
  | [], _ => []
  | .leave v :: rest, seen => v :: postorderFrom next rest seen
  | .enter v :: rest, seen =>
    if h : seen.isOpen v then
      postorderFrom next ((next v).map .enter ++ .leave v :: rest) (seen.mark v)
    else postorderFrom next rest seen
termination_by work seen => (seen.openCount, work.length)
decreasing_by
  · exact .right _ (by simp)
  · exact .left _ _ (Marks.openCount_mark_lt h)
  · exact .right _ (by simp)

/-- The nodes reachable from `start`, each after the nodes it leads to, cycles apart. -/
def postorder (g : Adjacency) (start : Nat) : List Nat :=
  postorderFrom g.next [.enter start] (.none g.size)

end Adjacency

namespace Digraph

def postorder (g : Digraph) (start : Nat) : List Nat := g.adjacency.postorder start

def reversePostorder (g : Digraph) (start : Nat) : List Nat := (g.postorder start).reverse

end Digraph

end ClientScript
