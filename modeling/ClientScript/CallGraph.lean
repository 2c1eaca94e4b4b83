import ClientScript.Graph.Component
import ClientScript.Graph.Labelled
import ClientScript.IntMap
import ClientScript.Text.Dot
import ClientScript.Trigger

/-!
Who calls whom. A script is known from its first mention on, a call from its first occurrence on;
the same call by another trigger is another call. Scripts are the nodes of a graph with an edge for
each call. A script is recursive if calls lead from it back to it.
-/
namespace ClientScript

structure Call where
  caller : Int32
  callee : Int32
  trigger : Trigger
  deriving DecidableEq

structure CallGraph where
  graph : LabelledGraph Int32 Trigger
  nodes : IntMap Nat
  named : ∀ script v, nodes.get? script = some v ↔ graph.nodes[v]? = some script

namespace CallGraph

def empty : CallGraph where
  graph := .empty
  nodes := .empty
  named := by simp [LabelledGraph.empty, IntMap.get?_empty]

def isEmpty (g : CallGraph) : Bool := g.graph.nodes.isEmpty

theorem named_addNode {g : CallGraph} {script : Int32} (new : g.nodes.get? script = none)
    (s : Int32) (v : Nat) : (g.nodes.insert script g.graph.nodes.size).get? s = some v ↔
      (g.graph.addNode script).nodes[v]? = some s := by
  simp only [IntMap.get?_insert, LabelledGraph.addNode, Array.getElem?_push]
  by_cases last : v = g.graph.nodes.size
  · subst last
    simp only [if_true, Option.some.injEq]
    split
    · rename_i same
      simp [same]
    · rename_i other
      simp only [g.named, Array.getElem?_size, reduceCtorEq, false_iff]
      exact Ne.symm other
  · simp only [if_neg last]
    split
    · rename_i same
      subst same
      rw [← g.named, new]
      simpa using Ne.symm last
    · exact g.named s v

def node (g : CallGraph) (script : Int32) : Nat × CallGraph :=
  match new : g.nodes.get? script with
  | some v => (v, g)
  | none =>
    (g.graph.nodes.size,
      { graph := g.graph.addNode script
        nodes := g.nodes.insert script g.graph.nodes.size
        named := named_addNode new })

def mention (g : CallGraph) (script : Int32) : CallGraph := (g.node script).2

theorem node_known {g : CallGraph} {script : Int32} {v : Nat}
    (known : g.nodes.get? script = some v) : g.node script = (v, g) := by
  unfold node
  split
  · rename_i u here
    rw [Option.some.inj (here.symm.trans known)]
  · rename_i none
    simp [none] at known

theorem node_new {g : CallGraph} {script : Int32} (new : g.nodes.get? script = none) :
    g.node script = (g.graph.nodes.size, ⟨g.graph.addNode script,
      g.nodes.insert script g.graph.nodes.size, named_addNode new⟩) := by
  unfold node
  split
  · rename_i v known
    simp [known] at new
  · rfl

theorem nodes_mention {g : CallGraph} {v : Nat} {s : Int32} (here : g.graph.nodes[v]? = some s)
    (script : Int32) : (g.mention script).graph.nodes[v]? = some s := by
  rw [mention]
  cases known : g.nodes.get? script with
  | some u => rwa [node_known known]
  | none =>
    have inside := (Array.getElem?_eq_some_iff.1 here).1
    rw [node_new known]
    exact Array.getElem?_push_lt inside ▸ (Array.getElem?_eq_getElem inside).symm.trans here

theorem nodes_node (g : CallGraph) (script : Int32) :
    (g.mention script).graph.nodes[(g.node script).1]? = some script := by
  rw [mention]
  cases known : g.nodes.get? script with
  | some v =>
    rw [node_known known]
    exact (g.named script v).1 known
  | none =>
    rw [node_new known]
    exact Array.getElem?_push_size

def connect (g : CallGraph) (call : Call) {u v : Nat}
    (source : g.graph.nodes[u]? = some call.caller)
    (target : g.graph.nodes[v]? = some call.callee) : CallGraph where
  graph := g.graph.connect u v call.trigger
    (Array.getElem?_eq_some_iff.1 source).1 (Array.getElem?_eq_some_iff.1 target).1
  nodes := g.nodes
  named := g.named

/-- Record a call; the answer is whether it is new. -/
def record (g : CallGraph) (call : Call) : Bool × CallGraph :=
  let g₁ := g.mention call.caller
  let source := (g.node call.caller).1
  let g₂ := g₁.mention call.callee
  let target := (g₁.node call.callee).1
  if (g₂.graph.findEdge? source target (· == call.trigger)).isSome then (false, g₂)
  else
    (true, g₂.connect call (nodes_mention (g.nodes_node call.caller) call.callee)
      (g₁.nodes_node call.callee))

def scripts (g : CallGraph) : List Int32 := g.graph.nodes.toList

def call? (g : CallGraph) (e : LabelledGraph.Edge Trigger) : Option Call := do
  return ⟨← g.graph.nodes[e.source]?, ← g.graph.nodes[e.target]?, e.data⟩

def calls (g : CallGraph) : List Call := g.graph.numbered.filterMap fun e => g.call? e.2

def callsFrom (g : CallGraph) (script : Int32) : List Call :=
  match g.nodes.get? script with
  | some v => (g.graph.outgoing v).filterMap fun e => g.call? e.2
  | none => []

def callsTo (g : CallGraph) (script : Int32) : List Call :=
  match g.nodes.get? script with
  | some v => (g.graph.incoming v).filterMap fun e => g.call? e.2
  | none => []

/-- Distinct and ascending. -/
def callees (g : CallGraph) (script : Int32) : List Int32 :=
  IntMap.sort ((g.callsFrom script).map Call.callee)

def callers (g : CallGraph) (script : Int32) : List Int32 :=
  IntMap.sort ((g.callsTo script).map Call.caller)

def sortedScripts (g : CallGraph) : List Int32 := g.nodes.keys

/-- More than one member, or one that leads to itself. -/
def isCyclic (a : Adjacency) : List Nat → Bool
  | [v] => (a.next v).contains v
  | _ => true

def recursive (g : CallGraph) : List Int32 :=
  let a := g.graph.adjacency
  let nodes := (a.components.filter (isCyclic a)).flatten
  IntMap.sort (nodes.filterMap fun v => g.graph.nodes[v]?)

def isRecursive (g : CallGraph) (script : Int32) : Bool := g.recursive.contains script

structure Stats where
  scripts : Nat
  calls : Nat
  procs : Nat
  clientScripts : Nat
  others : Nat
  entries : Nat
  leaves : Nat
  components : Nat
  recursive : Nat

def stats (g : CallGraph) : Stats :=
  let triggers := g.graph.edges.toList.map LabelledGraph.Edge.data
  let nodes := List.range g.graph.nodes.size
  { scripts := g.graph.nodes.size
    calls := g.graph.edges.size
    procs := triggers.countP fun t => t == .proc
    clientScripts := triggers.countP fun t => t == .clientScript
    others := triggers.countP fun t => t != .proc && t != .clientScript
    entries := nodes.countP fun v => g.graph.inDegree v == 0
    leaves := nodes.countP fun v => g.graph.outDegree v == 0
    components := g.graph.adjacency.components.length
    recursive := g.recursive.length }

/-- Entries are green, other leaves blue. -/
def dotFill (g : CallGraph) (v : Nat) : String :=
  if g.graph.inDegree v == 0 then ", style=filled, fillcolor=lightgreen"
  else if g.graph.outDegree v == 0 then ", style=filled, fillcolor=lightblue"
  else ""

def dotNode (g : CallGraph) (v : Nat) (script : Int32) : String :=
  s!"    \"{script}\" [label=\"script{script}\"{g.dotFill v}];\n"

def dotEdge (c : Call) : String :=
  s!"    \"{c.caller}\" -> \"{c.callee}\" [label=\"{c.trigger.name}\"];\n"

def toDot (g : CallGraph) (title : Option String) : String :=
  "digraph CallGraph \x7b\n" ++
  "    label=\"" ++ ((title.map Text.Dot.escape).getD "Call Graph") ++ "\";\n" ++
  "    labelloc=t;\n" ++
  "    node [shape=box, fontname=\"Courier\", fontsize=10];\n" ++
  "    edge [fontname=\"Courier\", fontsize=9];\n" ++
  "    rankdir=TB;\n\n" ++
  String.join (g.scripts.zipIdx.map fun s => g.dotNode s.2 s.1) ++ "\n" ++
  String.join (g.calls.map dotEdge) ++ "\x7d\n"

end CallGraph

end ClientScript
