import ClientScript.Graph.Digraph
import ClientScript.Graph.Marks

/-!
Marking searches. A search marks what it can reach; it does not go on from a node where it is
stopped, though it marks the node.
-/
namespace ClientScript

def Marks.search (next : Nat → List Nat) (stop : Nat → Bool) : List Nat → Marks → Marks
  | [], m => m
  | v :: rest, m =>
    if _h : m.isOpen v then
      search next stop (if stop v then rest else next v ++ rest) (m.mark v)
    else search next stop rest m
termination_by work m => (m.openCount, work.length)
decreasing_by
  · exact .left _ _ (Marks.openCount_mark_lt _h)
  · exact .right _ (by simp)

namespace Digraph

/-- What can be reached from `start` without passing a blocked node. A blocked node is marked. -/
def reachable (g : Digraph) (start : Nat) (blocked : Nat → Bool) : Marks :=
  Marks.search g.next blocked [start] (.none g.size)

def naturalLoop (g : Digraph) (header : Nat) (latches : List Nat) : Marks :=
  if header < g.size then
    Marks.search g.prev (fun _ => false) latches ((Marks.none g.size).mark header)
  else .none g.size

end Digraph

end ClientScript
