import ClientScript.Proofs.Structure.Simulation

/-!
Structuring keeps what code does. If no switch strays and nothing goes on behind an arm with the
end of the code in it, code and tree agree. Main statement: so do the code and the tree of any
function without switches that ends in returns.
-/
namespace ClientScript

open FlowGraph

section

variable {f : Function} {g : FlowGraph} (graph : ofFunction f = .ok g)

include graph

theorem FlowGraph.entry_mem {n : Nat} {b : Block} (found : g.block? n = some b)
    {e : Nat × Instruction} (member : e ∈ b.entries) : e ∈ f.code.toList := by
  rw [← flatten_entries graph]
  have among : b ∈ g.blocks.toList := List.mem_iff_getElem?.2 ⟨n, by simpa [block?] using found⟩
  exact List.mem_flatten.2 ⟨b.entries, List.mem_map.2 ⟨b, among, rfl⟩, member⟩

theorem FlowGraph.last_mem {n : Nat} {b : Block} (found : g.block? n = some b) {i : Instruction}
    (last : b.entries.getLast?.map (·.2) = some i) : i ∈ f.code.instructions := by
  obtain ⟨e, at_end, rfl⟩ := Option.map_eq_some_iff.1 last
  exact List.mem_map_of_mem (entry_mem graph found (List.mem_of_getLast? at_end))

theorem FlowGraph.switch_mem {n : Nat} {b : Block} (found : g.block? n = some b) {e : Expr}
    {cases : List (Int32 × Nat)} {default : Nat} (exit : b.exit = .dispatches e cases default) :
    ∃ labels, .switch e labels ∈ f.code.instructions := by
  have left := (wellFormed_of_ofFunction graph).leaves found
  rw [exit] at left
  generalize last : b.entries.getLast?.map (·.2) = ending at left
  cases left with
  | dispatches => exact ⟨_, last_mem graph found last⟩

theorem Function.tree_of_graph {t : Tree} (built : f.tree = .ok t) :
    (Layout.of g).tree = .ok t := by
  simp only [Function.tree, graph, bind, Except.bind] at built
  cases made : (Layout.of g).tree with
  | error o => simp [made, Except.mapError] at built
  | ok t' => simpa [made, Except.mapError] using built

theorem Layout.planned_of_mem_plans {plan : Plan} (made : plan ∈ (Layout.of g).plans) :
    ∃ n b placed placed' scope, g.block? n = some b ∧
      (Layout.of g).Planned placed n b scope placed' plan := by
  obtain ⟨v, visited, placed', planned⟩ := mem_plans made
  obtain ⟨n, found⟩ := block_of_mem_visitsFrom visited
  exact ⟨n, v.block, v.placed, placed', v.scope, found,
    planned_of_plan (wellFormed_of_ofFunction graph) found planned⟩

theorem Layout.strays_of_no_switch (noSwitch : ∀ e cases, .switch e cases ∉ f.code.instructions)
    {plan : Plan} (made : plan ∈ (Layout.of g).plans) : (Layout.of g).strays plan = false := by
  obtain ⟨n, b, placed, placed', scope, found, planned⟩ := planned_of_mem_plans graph made
  cases planned with
  | straight | loop | guarded | forked => rfl
  | switched exit =>
    obtain ⟨cases, member⟩ := switch_mem graph found exit
    exact absurd member (noSwitch _ cases)

theorem Layout.reaches_iff_way {plan : Plan} (made : plan ∈ (Layout.of g).plans) {t v : Nat}
    {s : Scope} (arm : some (t, s) ∈ plan.arms) :
    (Layout.of g).reaches t v s ↔ (Layout.of g).digraph.Way s.endsAt t v := by
  have wf := wellFormed_of_ofFunction graph
  obtain ⟨n, b, placed, placed', scope, found, planned⟩ := planned_of_mem_plans graph made
  exact Digraph.reachable_iff_way ((planned.leads found arm).1.inside wf (block_inside found))

theorem Function.agrees_of_settled {t : Tree} (built : f.tree = .ok t)
    (settled : ∀ plan ∈ (Layout.of g).plans, (Layout.of g).Settled plan) :
    Machine.Agree (.ofCode f.code.instructions) f.code.instructions .ofTree (Tree.load t) :=
  (code_agrees graph).trans ((Layout.of g).tree_agrees (wellFormed_of_ofFunction graph) settled
    (tree_of_graph graph built))

end

theorem Layout.settled_of_returns {g : FlowGraph}
    (returns : ∀ n b, g.toDigraph.Reaches g.entry n → g.block? n = some b → b.exit.isFinal →
      b.exit = .returns)
    {plan : Plan} (stays : (Layout.of g).strays plan = false) : (Layout.of g).Settled plan := by
  refine ⟨stays, fun v b reached found falls => ?_⟩
  have final := returns v b reached found (by simp [falls, Exit.isFinal])
  simp [falls] at final

/-- The tree of code without switches does what the code does. -/
theorem Function.tree_agrees_of_no_switch {f : Function} {g : FlowGraph} {t : Tree}
    (graph : ofFunction f = .ok g)
    (noSwitch : ∀ e cases, .switch e cases ∉ f.code.instructions)
    (returns : ∀ n b, g.toDigraph.Reaches g.entry n → g.block? n = some b → b.exit.isFinal →
      b.exit = .returns)
    (built : f.tree = .ok t) :
    Machine.Agree (.ofCode f.code.instructions) f.code.instructions .ofTree (Tree.load t) := by
  refine Function.agrees_of_settled graph built fun plan made => ?_
  exact Layout.settled_of_returns returns (Layout.strays_of_no_switch graph noSwitch made)

namespace Sample

def probe (n : Int32) : Expr := .pointer (.varp n)

def probes (n : Int32) : Instruction := .assign [] (probe n)

def looping : Function :=
  ⟨0, [], .ofList [.label 0, .branch (probe 0) 2, .branch (probe 1) 1, probes 2, .label 1, .goto 0,
    .label 2, .ret []], []⟩

def loopingGraph : FlowGraph :=
  ⟨0, #[⟨0, [(0, .label 0), (1, .branch (probe 0) 2)], .tests (probe 0) 4 1⟩,
    ⟨1, [(2, .branch (probe 1) 1)], .tests (probe 1) 3 2⟩, ⟨2, [(3, probes 2)], .falls (some 3)⟩,
    ⟨3, [(4, .label 1), (5, .goto 0)], .jumps 0⟩, ⟨4, [(6, .label 2), (7, .ret [])], .returns⟩]⟩

def loopingTree : Tree :=
  [.loop ⟨[], probe 0, true⟩ [.choice [(⟨[], probe 1, true⟩, [.seq [probes 2]])] none],
    .seq [.ret []]]

theorem returns_of_all {g : FlowGraph} (all : ∀ b ∈ g.blocks.toList, b.exit.isFinal →
      b.exit = .returns) (n : Nat) (b : Block) (_ : g.toDigraph.Reaches g.entry n)
    (found : g.block? n = some b) : b.exit.isFinal → b.exit = .returns :=
  all b (List.mem_iff_getElem?.2 ⟨n, by simpa [block?] using found⟩)

theorem looping_agrees :
    Machine.Agree (.ofCode looping.code.instructions) looping.code.instructions .ofTree
      (Tree.load loopingTree) := by
  have code : looping.code.instructions = [.label 0, .branch (probe 0) 2, .branch (probe 1) 1,
    probes 2, .label 1, .goto 0, .label 2, .ret []] := by cbv
  have graph : ofFunction looping = .ok loopingGraph := by cbv
  refine Function.tree_agrees_of_no_switch graph ?_ (returns_of_all ?_) (by cbv)
  · simp [code, probes]
  · simp [loopingGraph, Exit.isFinal]

end Sample

end ClientScript
