import ClientScript.Proofs.Structure.Preservation

/-!
Where switches go on. A switch whose arms do not all meet goes on behind arms that come to the
header of the loop around, which end in the same way as arms that come to where it goes on. Main
statement: code and tree agree, with switches that go on only where the code does, exactly if no
switch strays; one that does is shown.
-/
namespace ClientScript

open FlowGraph

/-- A switch goes on only behind arms from which control does not come to the header of the loop
    around without passing where the switch goes on. -/
def Layout.Steady (l : Layout) (plan : Plan) : Prop :=
  ∀ m t s h, plan.isSwitch → plan.follow? = some m → some (t, s) ∈ plan.arms →
    s.header = some h → h ≠ m → ¬ l.digraph.Way s.endsAt t h

section

variable {f : Function} {g : FlowGraph} (graph : ofFunction f = .ok g)

include graph

theorem Layout.steady_iff {plan : Plan} (made : plan ∈ (Layout.of g).plans) :
    (Layout.of g).Steady plan ↔ (Layout.of g).strays plan = false := by
  constructor
  · intro steady
    by_contra strayed
    simp only [strays, Bool.not_eq_false, Bool.and_eq_true, Option.any_eq_true, List.any_eq_true,
      bne_iff_ne, ne_eq] at strayed
    obtain ⟨switch, m, follow, _, arm, ⟨t, s⟩, rfl, h, header, differ, reached⟩ := strayed
    exact steady m t s h switch follow arm header differ
      ((reaches_iff_way graph made arm).1 reached)
  · intro stays m t s h switch follow arm header differ way
    have strayed : (Layout.of g).strays plan = true := by
      simp only [strays, Bool.and_eq_true, Option.any_eq_true, List.any_eq_true, bne_iff_ne, ne_eq]
      exact ⟨switch, m, follow, _, arm, _, rfl, h, header, differ,
        (reaches_iff_way graph made arm).2 way⟩
    simp [strayed] at stays

/-- The tree of code with switches does what the code does, and goes on behind a switch only where
    the code does, exactly if no switch strays. -/
theorem Function.tree_agrees_and_steady_iff {t : Tree}
    (returns : ∀ n b, g.toDigraph.Reaches g.entry n → g.block? n = some b → b.exit.isFinal →
      b.exit = .returns)
    (built : f.tree = .ok t) :
    (Machine.Agree (.ofCode f.code.instructions) f.code.instructions .ofTree (Tree.load t) ∧
      ∀ plan ∈ (Layout.of g).plans, (Layout.of g).Steady plan) ↔
    ∀ plan ∈ (Layout.of g).plans, (Layout.of g).strays plan = false := by
  constructor
  · rintro ⟨-, steady⟩ plan made
    exact (Layout.steady_iff graph made).1 (steady plan made)
  · intro stays
    constructor
    · refine Function.agrees_of_settled graph built fun plan made => ?_
      exact Layout.settled_of_returns returns (stays plan made)
    · exact fun plan made => (Layout.steady_iff graph made).2 (stays plan made)

end

namespace Sample

/-- A loop with a switch in it whose arms meet. -/
def choosing : Function :=
  ⟨0, [], .ofList [.label 0, .branch (probe 0) 2, .switch (probe 1) (.ofList [(1, 1)]), probes 2,
    .label 1, probes 3, .goto 0, .label 2, .ret []], []⟩

def choosingGraph : FlowGraph :=
  ⟨0, #[⟨0, [(0, .label 0), (1, .branch (probe 0) 2)], .tests (probe 0) 4 1⟩,
    ⟨1, [(2, .switch (probe 1) (.ofList [(1, 1)]))], .dispatches (probe 1) [(1, 3)] 2⟩,
    ⟨2, [(3, probes 2)], .falls (some 3)⟩,
    ⟨3, [(4, .label 1), (5, probes 3), (6, .goto 0)], .jumps 0⟩,
    ⟨4, [(7, .label 2), (8, .ret [])], .returns⟩]⟩

def choosingTree : Tree :=
  [.loop ⟨[], probe 0, true⟩
      [.switch (probe 1) [([1], Tree.empty)] (some [.seq [probes 2]]), .seq [probes 3]],
    .seq [.ret []]]

theorem choosing_agrees :
    Machine.Agree (.ofCode choosing.code.instructions) choosing.code.instructions .ofTree
        (Tree.load choosingTree) ∧
      ∀ plan ∈ (Layout.of choosingGraph).plans, (Layout.of choosingGraph).Steady plan := by
  have graph : ofFunction choosing = .ok choosingGraph := by cbv
  have clean : (Layout.of choosingGraph).plans.all
      (fun plan => !(Layout.of choosingGraph).strays plan) = true := by cbv
  have returns := returns_of_all (g := choosingGraph) (by simp [choosingGraph, Exit.isFinal])
  refine (Function.tree_agrees_and_steady_iff graph returns (by cbv)).2 fun plan made => ?_
  simpa using List.all_eq_true.1 clean plan made

/-- A loop with a switch in it, one case of which goes back to the header. -/
def continuing : Function :=
  ⟨0, [], .ofList [.label 0, .branch (probe 0) 3, .switch (probe 1) (.ofList [(1, 0), (2, 1)]),
    probes 2, .goto 2, .label 1, probes 3, .label 2, .ret [], .label 3, .ret []], []⟩

def continuingGraph : FlowGraph :=
  ⟨0, #[⟨0, [(0, .label 0), (1, .branch (probe 0) 3)], .tests (probe 0) 5 1⟩,
    ⟨1, [(2, .switch (probe 1) (.ofList [(1, 0), (2, 1)]))],
      .dispatches (probe 1) [(1, 0), (2, 3)] 2⟩,
    ⟨2, [(3, probes 2), (4, .goto 2)], .jumps 4⟩,
    ⟨3, [(5, .label 1), (6, probes 3)], .falls (some 4)⟩,
    ⟨4, [(7, .label 2), (8, .ret [])], .returns⟩, ⟨5, [(9, .label 3), (10, .ret [])], .returns⟩]⟩

def continuingTree : Tree :=
  [.loop ⟨[], probe 0, true⟩
      [.switch (probe 1) [([1], Tree.empty), ([2], [.seq [probes 3]])] (some [.seq [probes 2]]),
        .seq [.ret []]],
    .seq [.ret []]]

/-- In the first case the code tests the loop again, where the tree returns. -/
theorem continuing_disagrees :
    ofFunction continuing = .ok continuingGraph ∧
      (∀ n b, continuingGraph.toDigraph.Reaches continuingGraph.entry n →
        continuingGraph.block? n = some b → b.exit.isFinal → b.exit = .returns) ∧
      continuing.tree = .ok continuingTree ∧
      ¬ Machine.Agree (.ofCode continuing.code.instructions) continuing.code.instructions .ofTree
        (Tree.load continuingTree) := by
  refine ⟨by cbv, returns_of_all (by simp [continuingGraph, Exit.isFinal]), by cbv, fun agree => ?_⟩
  let o : Oracle := ⟨fun _ => false, fun _ => 1⟩
  have code_begins : (Machine.ofCode continuing.code.instructions).Begins o
      continuing.code.instructions [.tests (probe 0), .dispatches (probe 1), .tests (probe 0)] := by
    have shows : shown ((Machine.ofCode continuing.code.instructions).run o 4 0
        continuing.code.instructions).1 =
          [.tests (probe 0), .dispatches (probe 1), .tests (probe 0)] := by cbv
    exact ⟨4, shows ▸ List.prefix_refl _⟩
  have tree_ends : Machine.ofTree.Ends o (Tree.load continuingTree)
      [.tests (probe 0), .dispatches (probe 1), .executes (.ret [])] := ⟨4, by cbv, by cbv⟩
  have early := Machine.prefix_of_ends (((agree o).1 _).1 code_begins) tree_ends
  simp at early

end Sample

end ClientScript
