import ClientScript.Graph.Digraph

/-!
Graphs with data on nodes and edges, both numbered in the order they were added. The edges out of a
node, and those into it, are listed with the node by their numbers.
-/
namespace ClientScript

structure LabelledGraph.Edge (ε : Type) where
  source : Nat
  target : Nat
  data : ε

namespace LabelledGraph

variable {ν ε : Type}

def numbersAt (side : Edge ε → Nat) (edges : Array (Edge ε)) (v : Nat) : List Nat :=
  (List.range edges.size).filter fun e => edges[e]?.map side == some v

/-- The list of each node holds the numbers of the edges that have it on one side, in order. -/
structure Indexes (side : Edge ε → Nat) (edges : Array (Edge ε)) (size : Nat)
    (lists : Array (Array Nat)) : Prop where
  covers : lists.size = size
  numbers : ∀ v, (lists[v]?.getD #[]).toList = numbersAt side edges v

variable {side : Edge ε → Nat} {edges : Array (Edge ε)} {size : Nat} {lists : Array (Array Nat)}

theorem numbersAt_push (side : Edge ε → Nat) (edges : Array (Edge ε)) (e : Edge ε) (v : Nat) :
    numbersAt side (edges.push e) v =
      numbersAt side edges v ++ if side e = v then [edges.size] else [] := by
  have old : ∀ i ∈ List.range edges.size, (edges.push e)[i]? = edges[i]? := by
    intro i inside
    exact Array.getElem?_push_lt (List.mem_range.1 inside) ▸
      (Array.getElem?_eq_getElem (List.mem_range.1 inside)).symm
  rw [numbersAt, numbersAt, Array.size_push, List.range_succ, List.filter_append]
  congr 1
  · exact List.filter_congr fun i inside => by rw [old i inside]
  · simp only [List.filter_cons, List.filter_nil, Array.getElem?_push_size, Option.map_some,
      beq_iff_eq, Option.some.injEq]

theorem Indexes.push (indexes : Indexes side edges size lists) :
    Indexes side edges (size + 1) (lists.push #[]) := by
  have covers := indexes.covers
  refine ⟨by rw [Array.size_push, covers], fun v => ?_⟩
  rw [← indexes.numbers, Array.getElem?_push]
  split
  · rename_i last
    rw [Array.getElem?_eq_none (Nat.le_of_eq last.symm)]
    rfl
  · rfl

theorem Indexes.connect (indexes : Indexes side edges size lists) (e : Edge ε)
    (inside : side e < size) :
    Indexes side (edges.push e) size (lists.modify (side e) (·.push edges.size)) := by
  refine ⟨by rw [Array.size_modify, indexes.covers], fun v => ?_⟩
  rw [numbersAt_push, ← indexes.numbers, Array.getElem?_modify]
  split
  · rename_i same
    subst same
    rw [Array.getElem?_eq_getElem (indexes.covers ▸ inside)]
    simp
  · simp

end LabelledGraph

structure LabelledGraph (ν ε : Type) where
  nodes : Array ν
  edges : Array (LabelledGraph.Edge ε)
  leaving : Array (Array Nat)
  entering : Array (Array Nat)
  inside : ∀ e ∈ edges, e.source < nodes.size ∧ e.target < nodes.size
  leaves : LabelledGraph.Indexes LabelledGraph.Edge.source edges nodes.size leaving
  enters : LabelledGraph.Indexes LabelledGraph.Edge.target edges nodes.size entering

namespace LabelledGraph

inductive MissingNode where
  | source (node size : Nat)
  | target (node size : Nat)
  deriving DecidableEq

def MissingNode.message : MissingNode → String
  | .source node size => s!"source node n{node} does not exist in graph with {size} nodes"
  | .target node size => s!"target node n{node} does not exist in graph with {size} nodes"

variable {ν ε : Type}

def empty : LabelledGraph ν ε :=
  ⟨#[], #[], #[], #[], by simp, ⟨rfl, fun _ => rfl⟩, ⟨rfl, fun _ => rfl⟩⟩

def addNode (g : LabelledGraph ν ε) (data : ν) : LabelledGraph ν ε where
  nodes := g.nodes.push data
  edges := g.edges
  leaving := g.leaving.push #[]
  entering := g.entering.push #[]
  inside := by
    intro e h
    have := g.inside e h
    simp only [Array.size_push]
    omega
  leaves := Array.size_push data ▸ g.leaves.push
  enters := Array.size_push data ▸ g.enters.push

def connect (g : LabelledGraph ν ε) (source target : Nat) (data : ε)
    (hs : source < g.nodes.size) (ht : target < g.nodes.size) : LabelledGraph ν ε where
  nodes := g.nodes
  edges := g.edges.push ⟨source, target, data⟩
  leaving := g.leaving.modify source (·.push g.edges.size)
  entering := g.entering.modify target (·.push g.edges.size)
  inside := by
    intro e h
    rcases Array.mem_push.1 h with h | rfl
    · exact g.inside e h
    · exact ⟨hs, ht⟩
  leaves := g.leaves.connect ⟨source, target, data⟩ hs
  enters := g.enters.connect ⟨source, target, data⟩ ht

def addEdge (g : LabelledGraph ν ε) (source target : Nat) (data : ε) :
    Except MissingNode (LabelledGraph ν ε) :=
  if hs : source < g.nodes.size then
    if ht : target < g.nodes.size then .ok (g.connect source target data hs ht)
    else .error (.target target g.nodes.size)
  else .error (.source source g.nodes.size)

def setNode (g : LabelledGraph ν ε) (v : Nat) (data : ν) : LabelledGraph ν ε where
  nodes := g.nodes.setIfInBounds v data
  edges := g.edges
  leaving := g.leaving
  entering := g.entering
  inside := by
    intro e h
    simpa using g.inside e h
  leaves := by simpa using g.leaves
  enters := by simpa using g.enters

def toDigraph (g : LabelledGraph ν ε) : Digraph where
  size := g.nodes.size
  edges := g.edges.toList.map fun e => (e.source, e.target)
  inside := by
    intro e h
    obtain ⟨e', h', rfl⟩ := List.mem_map.1 h
    exact g.inside e' (Array.mem_toList_iff.1 h')

def edge? (g : LabelledGraph ν ε) (e : Nat) : Option (Nat × Edge ε) := g.edges[e]?.map (e, ·)

def numbered (g : LabelledGraph ν ε) : List (Nat × Edge ε) :=
  (List.range g.edges.size).filterMap g.edge?

def outgoing (g : LabelledGraph ν ε) (v : Nat) : List (Nat × Edge ε) :=
  (g.leaving[v]?.getD #[]).toList.filterMap g.edge?

def incoming (g : LabelledGraph ν ε) (v : Nat) : List (Nat × Edge ε) :=
  (g.entering[v]?.getD #[]).toList.filterMap g.edge?

def outDegree (g : LabelledGraph ν ε) (v : Nat) : Nat := (g.leaving[v]?.getD #[]).size

def inDegree (g : LabelledGraph ν ε) (v : Nat) : Nat := (g.entering[v]?.getD #[]).size

def findEdge? (g : LabelledGraph ν ε) (source target : Nat) (p : ε → Bool) : Option Nat :=
  ((g.outgoing source).find? fun e => e.2.target == target && p e.2.data).map (·.1)

theorem mem_numbersAt {side : Edge ε → Nat} {edges : Array (Edge ε)} {v e : Nat} :
    e ∈ numbersAt side edges v ↔ ∃ edge, edges[e]? = some edge ∧ side edge = v := by
  simp only [numbersAt, List.mem_filter, List.mem_range, beq_iff_eq, Option.map_eq_some_iff,
    and_iff_right_iff_imp]
  rintro ⟨edge, found, -⟩
  exact (Array.getElem?_eq_some_iff.1 found).1

theorem mem_entries {g : LabelledGraph ν ε} {side : Edge ε → Nat} {v : Nat}
    {entry : Nat × Edge ε} : entry ∈ (numbersAt side g.edges v).filterMap g.edge? ↔
      g.edges[entry.1]? = some entry.2 ∧ side entry.2 = v := by
  simp only [List.mem_filterMap, mem_numbersAt, edge?, Option.map_eq_some_iff]
  constructor
  · rintro ⟨e, ⟨edge, found, there⟩, edge', found', rfl⟩
    obtain rfl := Option.some.inj (found.symm.trans found')
    exact ⟨found, there⟩
  · rintro ⟨found, there⟩
    exact ⟨entry.1, ⟨entry.2, found, there⟩, entry.2, found, rfl⟩

theorem mem_outgoing {g : LabelledGraph ν ε} {v : Nat} {entry : Nat × Edge ε} :
    entry ∈ g.outgoing v ↔ g.edges[entry.1]? = some entry.2 ∧ entry.2.source = v := by
  rw [outgoing, g.leaves.numbers, mem_entries]

theorem mem_incoming {g : LabelledGraph ν ε} {v : Nat} {entry : Nat × Edge ε} :
    entry ∈ g.incoming v ↔ g.edges[entry.1]? = some entry.2 ∧ entry.2.target = v := by
  rw [incoming, g.enters.numbers, mem_entries]

def adjacency (g : LabelledGraph ν ε) : Adjacency where
  size := g.nodes.size
  next v := (g.outgoing v).map (·.2.target)
  prev v := (g.incoming v).map (·.2.source)
  agree := by
    intro u v
    simp only [List.mem_map, mem_incoming, mem_outgoing]
    constructor
    · rintro ⟨e, ⟨found, into⟩, out⟩
      exact ⟨e, ⟨found, out⟩, into⟩
    · rintro ⟨e, ⟨found, out⟩, into⟩
      exact ⟨e, ⟨found, into⟩, out⟩
  inside := by
    intro u v h
    obtain ⟨e, member, rfl⟩ := List.mem_map.1 h
    obtain ⟨found, rfl⟩ := mem_outgoing.1 member
    exact g.inside e.2 (Array.mem_of_getElem? found)

end LabelledGraph

end ClientScript
