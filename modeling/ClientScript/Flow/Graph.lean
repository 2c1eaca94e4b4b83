import ClientScript.Flow.Block
import ClientScript.Function
import ClientScript.Graph.Dominance

/-!
The block graph of a function. Blocks are numbered in program order. Post-dominance is dominance
in the reversed graph from a virtual exit that all final blocks lead to.
-/
namespace ClientScript

structure FlowGraph where
  script : Int32
  blocks : Array Block

namespace FlowGraph

def blockOfLabel (runs : List (List (Nat × Instruction))) (l : Label) : Option Nat :=
  (List.range runs.length).reverse.find? fun i =>
    (runs[i]?.getD []).any fun e => e.2.anchor? == some l

def resolve (script : Int32) (blockOf : Label → Option Nat) (l : Label) : Except Failure Nat :=
  match blockOf l with
  | some n => .ok n
  | none => .error (.malformed script (.noAnchor l))

def resolveCases (script : Int32) (blockOf : Label → Option Nat) :
    List (Int32 × Label) → Except Failure (List (Int32 × Nat))
  | [] => .ok []
  | (value, l) :: rest => do
    let n ← resolve script blockOf l
    return (value, n) :: (← resolveCases script blockOf rest)

def exitOf (script : Int32) (blockOf : Label → Option Nat) (next : Option Nat) :
    Option Instruction → Except Failure Exit
  | some (.ret _) => .ok .returns
  | some (.goto l) => do return .jumps (← resolve script blockOf l)
  | some (.branch condition l) => do
    let taken ← resolve script blockOf l
    match next with
    | some n => return .tests condition taken n
    | none => .error (.malformed script .endsWithBranch)
  | some (.switch expression cases) => do
    let targets ← resolveCases script blockOf cases.entries
    match next with
    | some n => return .dispatches expression targets n
    | none => .error (.malformed script .endsWithSwitch)
  | _ => .ok (.falls next)

def blocksFrom (script : Int32) (blockOf : Label → Option Nat) (count : Nat) :
    Nat → List (List (Nat × Instruction)) → Except Failure (List Block)
  | _, [] => .ok []
  | index, run :: rest => do
    let next := if index + 1 < count then some (index + 1) else none
    let exit ← exitOf script blockOf next (run.getLast?.map (·.2))
    return ⟨index, run, exit⟩ :: (← blocksFrom script blockOf count (index + 1) rest)

def ofFunction (f : Function) : Except Failure FlowGraph := do
  let runs := Block.split [] f.code.toList
  let blocks ← blocksFrom f.script (blockOfLabel runs) runs.length 0 runs
  return ⟨f.script, blocks.toArray⟩

variable (g : FlowGraph)

def entry (_ : FlowGraph) : Nat := 0

def size : Nat := g.blocks.size

def block? (n : Nat) : Option Block := g.blocks[n]?

/-- The block a label stands in; of equal labels the last counts. -/
def labelled? (l : Label) : Option Nat :=
  blockOfLabel (g.blocks.toList.map Block.entries) l

def exits : List Nat := (g.blocks.toList.filter fun b => b.exit.isFinal).map Block.index

def edges : List (Nat × Nat × EdgeKind) :=
  g.blocks.toList.flatMap fun b => b.exit.edges.map fun e => (b.index, e.1, e.2)

def toDigraph : Digraph := .ofEdges g.size (g.edges.map fun e => (e.1, e.2.1))

/-- The node that all final blocks lead to. -/
def virtualExit : Nat := g.size

def reversed : Digraph :=
  .ofEdges (g.size + 1)
    ((g.edges.map fun e => (e.2.1, e.1)) ++ g.exits.map fun n => (g.virtualExit, n))

/-- Follow blocks that only jump on, at most that many of them. -/
def forwardFrom : Nat → Nat → Nat
  | 0, n => n
  | hops + 1, n =>
    match (g.block? n).bind Block.trampoline? with
    | some target => forwardFrom hops target
    | none => n

def forward (n : Nat) : Nat := g.forwardFrom g.size n

end FlowGraph

structure Layout where
  graph : FlowGraph
  digraph : Digraph
  dominators : DominatorTree
  postDominators : DominatorTree
  digraph_eq : digraph = graph.toDigraph
  dominators_eq : dominators = digraph.dominators graph.entry
  postDominators_eq : postDominators = graph.reversed.dominators graph.virtualExit

namespace Layout

def of (g : FlowGraph) : Layout where
  graph := g
  digraph := g.toDigraph
  dominators := g.toDigraph.dominators g.entry
  postDominators := g.reversed.dominators g.virtualExit
  digraph_eq := rfl
  dominators_eq := rfl
  postDominators_eq := rfl

variable (l : Layout)

def immediatePostDominator? (n : Nat) : Option Nat :=
  (l.postDominators.immediate? n).filter (· != l.graph.virtualExit)

/-- The blocks that jump back to `n`: predecessors that it dominates. -/
def latches (n : Nat) : List Nat := (l.digraph.prev n).filter (l.dominators.dominates n)

def isLoopHeader (n : Nat) : Bool := !(l.latches n).isEmpty

end Layout

end ClientScript
