import ClientScript.Proofs.Flow.PostDominance

/-!
Ways out of a function. A path from a block to a final one is, read backwards, a path of the
reversed graph from the virtual exit. So a block is reached there if control can leave the function
from it, and what is on every way out dominates it there. Main statement: the immediate
post-dominator of a block is the nearest other block on every way out, if there is one.
-/
namespace ClientScript

theorem Walk.reversed {next back : Nat → List Nat} (turns : ∀ u v, v ∈ next u → u ∈ back v)
    {u v : Nat} {nodes : List Nat} (walk : Walk next u v nodes) : Walk back v u nodes.reverse := by
  induction walk with
  | one u => exact .one u
  | step edge _ ih =>
    rw [List.reverse_cons]
    exact ih.snoc (turns _ _ edge)

theorem Walk.inside {g : Digraph} {u v : Nat} {nodes : List Nat} (walk : Walk g.next u v nodes)
    (start : u < g.size) : ∀ x ∈ nodes, x < g.size := by
  induction walk with
  | one u => simpa using start
  | step edge _ ih =>
    intro x among
    rcases List.mem_cons.1 among with rfl | later
    · exact start
    · exact ih (Digraph.next_inside edge).2 x later

namespace FlowGraph

/-- A path from a block to one that control leaves the function from. -/
def WayOut (g : FlowGraph) (n : Nat) (nodes : List Nat) : Prop :=
  ∃ e ∈ g.exits, Walk g.toDigraph.next n e nodes

def CanLeave (g : FlowGraph) (n : Nat) : Prop := ∃ nodes, g.WayOut n nodes

def OnWaysOut (g : FlowGraph) (p n : Nat) : Prop := ∀ nodes, g.WayOut n nodes → p ∈ nodes

def PostDominates (g : FlowGraph) (p n : Nat) : Prop := p < g.size ∧ p ≠ n ∧ g.OnWaysOut p n

variable {g : FlowGraph}

variable (wf : g.WellFormed)
include wf

theorem mem_exits {v : Nat} : v ∈ g.exits ↔ ∃ b, g.block? v = some b ∧ b.exit.isFinal := by
  simp only [exits, List.mem_map, List.mem_filter]
  constructor
  · rintro ⟨b, ⟨among, final⟩, at_v⟩
    obtain ⟨n, at_n⟩ := List.mem_iff_getElem?.1 among
    have found : g.block? n = some b := by simpa [block?] using at_n
    exact ⟨b, by rw [← at_v, wf.index found]; exact found, final⟩
  · rintro ⟨b, found, final⟩
    exact ⟨b, ⟨List.mem_iff_getElem?.2 ⟨v, by simpa [block?] using found⟩, final⟩, wf.index found⟩

theorem next_virtualExit {v : Nat} : v ∈ g.reversed.next g.virtualExit ↔ v ∈ g.exits := by
  rw [mem_exits wf]
  constructor
  · intro edge
    rw [reversed, Digraph.mem_next_ofEdges] at edge
    rcases List.mem_append.1 edge.1 with back | final
    · obtain ⟨⟨v', u', k⟩, among, same⟩ := List.mem_map.1 back
      have exit : u' = g.size := congrArg Prod.fst same
      obtain ⟨b, found, out⟩ := (mem_edges wf).1 ⟨k, among⟩
      have inside := wf.successors_inside found out
      omega
    · obtain ⟨n, among, same⟩ := List.mem_map.1 final
      obtain rfl : n = v := congrArg Prod.snd same
      exact (mem_exits wf).1 among
  · rintro ⟨b, found, final⟩
    exact final_next wf found final

theorem mem_next_reversed_iff {u v : Nat} (inside : u < g.size) :
    v ∈ g.reversed.next u ↔ u ∈ g.toDigraph.next v := by
  rw [mem_next wf]
  constructor
  · intro edge
    exact (mem_edges wf).1 (next_reversed_inside edge inside)
  · rintro ⟨b, found, out⟩
    exact mem_next_reversed wf found out

theorem exits_inside {v : Nat} (exit : v ∈ g.exits) : v < g.size := by
  obtain ⟨b, found, -⟩ := (mem_exits wf).1 exit
  exact block_inside found

theorem walk_reversed {u v : Nat} {nodes : List Nat} (walk : Walk g.toDigraph.next u v nodes) :
    Walk g.reversed.next v u nodes.reverse :=
  walk.reversed fun _ _ edge => (mem_next_reversed_iff wf (Digraph.next_inside edge).2).2 edge

theorem walk_of_reversed {u v : Nat} {nodes : List Nat} (walk : Walk g.reversed.next u v nodes)
    (inside : u < g.size) : Walk g.toDigraph.next v u nodes.reverse := by
  induction walk with
  | one u => exact .one u
  | step edge _ ih =>
    have forth := (mem_next_reversed_iff wf inside).1 edge
    rw [List.reverse_cons]
    exact (ih (Digraph.next_inside forth).1).snoc forth

theorem walk_of_wayOut {n : Nat} {way : List Nat} (out : g.WayOut n way) :
    Walk g.reversed.next g.virtualExit n (g.virtualExit :: way.reverse) := by
  obtain ⟨e, exit, walk⟩ := out
  exact .step ((next_virtualExit wf).2 exit) (walk_reversed wf walk)

/-- The paths to a block from the virtual exit are its ways out, read backwards. -/
theorem wayOut_of_walk {n : Nat} (inside : n < g.size) {nodes : List Nat}
    (walk : Walk g.reversed.next g.virtualExit n nodes) :
    ∃ way, g.WayOut n way ∧ nodes = g.virtualExit :: way.reverse := by
  cases walk with
  | one => exact absurd inside (Nat.lt_irrefl _)
  | @step _ e _ nodes edge rest =>
    have exit := (next_virtualExit wf).1 edge
    exact ⟨nodes.reverse, ⟨e, exit, walk_of_reversed wf rest (exits_inside wf exit)⟩,
      by rw [List.reverse_reverse]⟩

theorem reaches_reversed_iff {n : Nat} (inside : n < g.size) :
    g.reversed.Reaches g.virtualExit n ↔ g.CanLeave n := by
  constructor
  · rintro ⟨nodes, walk⟩
    obtain ⟨way, out, -⟩ := wayOut_of_walk wf inside walk
    exact ⟨way, out⟩
  · rintro ⟨nodes, out⟩
    exact ⟨_, walk_of_wayOut wf out⟩

theorem dominates_reversed_iff {p n : Nat} (inside : n < g.size) (block : p < g.size) :
    g.reversed.adjacency.Dominates g.virtualExit p n ↔ g.CanLeave n ∧ g.OnWaysOut p n := by
  have other : p ≠ g.virtualExit := Nat.ne_of_lt block
  refine and_congr (reaches_reversed_iff wf inside)
    ⟨fun all nodes out => ?_, fun all nodes walk => ?_⟩
  · have among := all _ (walk_of_wayOut wf out)
    exact List.mem_reverse.1 ((List.mem_cons.1 among).resolve_left other)
  · obtain ⟨way, out, rfl⟩ := wayOut_of_walk wf inside walk
    exact List.mem_cons_of_mem _ (List.mem_reverse.2 (all way out))

theorem inside_of_dominates {p n : Nat} (inside : n < g.size)
    (dominates : g.reversed.adjacency.Dominates g.virtualExit p n) :
    p = g.virtualExit ∨ p < g.size := by
  obtain ⟨nodes, walk⟩ := dominates.1
  obtain ⟨way, ⟨e, exit, path⟩, rfl⟩ := wayOut_of_walk wf inside walk
  refine (List.mem_cons.1 (dominates.2 _ walk)).imp id fun among => ?_
  exact path.inside inside p (List.mem_reverse.1 among)

end FlowGraph

namespace Layout

variable {l : Layout} {n p : Nat}

theorem isReachable_postDominators (wf : l.graph.WellFormed) (inside : n < l.graph.size) :
    l.postDominators.isReachable n ↔ l.graph.CanLeave n := by
  rw [l.postDominators_eq, Digraph.isReachable_iff (Nat.lt_succ_self _),
    FlowGraph.reaches_reversed_iff wf inside]

theorem strictlyDominates_reversed_iff (wf : l.graph.WellFormed) (inside : n < l.graph.size)
    (block : p < l.graph.size) :
    l.graph.reversed.adjacency.StrictlyDominates l.graph.virtualExit p n ↔
      l.graph.CanLeave n ∧ l.graph.PostDominates p n := by
  rw [Adjacency.StrictlyDominates, FlowGraph.dominates_reversed_iff wf inside block,
    FlowGraph.PostDominates]
  tauto

theorem immediatePostDominator?_iff (wf : l.graph.WellFormed) (inside : n < l.graph.size) :
    l.immediatePostDominator? n = some p ↔ l.graph.CanLeave n ∧ l.graph.PostDominates p n ∧
      ∀ q, q ≠ p → l.graph.PostDominates q n → l.graph.OnWaysOut q p := by
  have exit : l.graph.virtualExit < l.graph.reversed.adjacency.size := Nat.lt_succ_self _
  have below : n ≠ l.graph.virtualExit := Nat.ne_of_lt inside
  rw [immediatePostDominator?, l.postDominators_eq, Option.filter_eq_some_iff]
  simp only [Digraph.dominators, Adjacency.immediate?_dominators exit, bne_iff_ne]
  constructor
  · rintro ⟨⟨-, strict, nearest⟩, other⟩
    have block := (FlowGraph.inside_of_dominates wf inside strict.2).resolve_left other
    obtain ⟨leaves, post⟩ := (strictlyDominates_reversed_iff wf inside block).1 strict
    refine ⟨leaves, post, fun q differ post' => ?_⟩
    have strict' := (strictlyDominates_reversed_iff wf inside post'.1).2 ⟨leaves, post'⟩
    exact ((FlowGraph.dominates_reversed_iff wf block post'.1).1 (nearest q differ strict')).2
  · rintro ⟨leaves, post, nearest⟩
    have strict := (strictlyDominates_reversed_iff wf inside post.1).2 ⟨leaves, post⟩
    refine ⟨⟨below, strict, fun q differ strict' => ?_⟩, Nat.ne_of_lt post.1⟩
    have reached := strict.2.reaches exit
    rcases FlowGraph.inside_of_dominates wf inside strict'.2 with rfl | block
    · exact ⟨reached, fun nodes walk => by obtain ⟨rest, rfl⟩ := walk.starts; simp⟩
    · have post' := ((strictlyDominates_reversed_iff wf inside block).1 strict').2
      exact (FlowGraph.dominates_reversed_iff wf post.1 block).2
        ⟨(FlowGraph.reaches_reversed_iff wf post.1).1 reached, nearest q differ post'⟩

theorem immediatePostDominator?_eq_none (wf : l.graph.WellFormed) (inside : n < l.graph.size) :
    l.immediatePostDominator? n = none ↔
      ¬ l.graph.CanLeave n ∨ ∀ q, ¬ l.graph.PostDominates q n := by
  have exit : l.graph.virtualExit < l.graph.reversed.adjacency.size := Nat.lt_succ_self _
  constructor
  · intro absent
    refine or_iff_not_imp_left.2 fun leaves q post => ?_
    rw [not_not] at leaves
    have reached := (isReachable_postDominators wf inside).2 leaves
    rw [DominatorTree.isReachable, Bool.or_eq_true, beq_iff_eq] at reached
    have root : l.postDominators.entry = l.graph.virtualExit := by
      rw [l.postDominators_eq, Digraph.dominators, Adjacency.dominators, dif_pos exit]
      rfl
    have linked := reached.resolve_left (root ▸ Nat.ne_of_lt inside)
    obtain ⟨d, nearest⟩ := Option.isSome_iff_exists.1 linked
    have only : d = l.graph.virtualExit := by
      simpa [immediatePostDominator?, nearest] using absent
    subst only
    rw [l.postDominators_eq, Digraph.dominators, Adjacency.immediate?_dominators exit] at nearest
    have strict := (strictlyDominates_reversed_iff wf inside post.1).2 ⟨leaves, post⟩
    have among := (nearest.2.2 q (Nat.ne_of_lt post.1) strict).2 _ (.one _)
    exact Nat.ne_of_lt post.1 (List.mem_singleton.1 among)
  · intro neither
    rw [Option.eq_none_iff_forall_ne_some]
    intro p nearest
    obtain ⟨leaves, post, -⟩ := (immediatePostDominator?_iff wf inside).1 nearest
    exact neither.elim (· leaves) (· p post)

/-- The post-dominator tree says what the ways out of a function say. -/
theorem postDominators_correct {f : Function} (built : FlowGraph.ofFunction f = .ok l.graph)
    (inside : n < l.graph.size) :
    (l.postDominators.isReachable n ↔ l.graph.CanLeave n) ∧
    (∀ p, l.immediatePostDominator? n = some p ↔ l.graph.CanLeave n ∧ l.graph.PostDominates p n ∧
      ∀ q, q ≠ p → l.graph.PostDominates q n → l.graph.OnWaysOut q p) ∧
    (l.immediatePostDominator? n = none ↔
      ¬ l.graph.CanLeave n ∨ ∀ q, ¬ l.graph.PostDominates q n) :=
  have wf := FlowGraph.wellFormed_of_ofFunction built
  ⟨isReachable_postDominators wf inside, fun _ => immediatePostDominator?_iff wf inside,
    immediatePostDominator?_eq_none wf inside⟩

end Layout

namespace Sample

def asked : Expr := .pointer (.varp 0)

/-- A choice with one arm, then a branch past a return to a loop without an end. -/
def trapping : Function :=
  ⟨0, [], .ofList [.branch asked 0, .assign [] asked, .label 0, .branch asked 1, .ret [], .label 1,
    .goto 1], []⟩

def trappingGraph : FlowGraph :=
  ⟨0, #[⟨0, [(0, .branch asked 0)], .tests asked 2 1⟩,
    ⟨1, [(1, .assign [] asked)], .falls (some 2)⟩,
    ⟨2, [(2, .label 0), (3, .branch asked 1)], .tests asked 4 3⟩, ⟨3, [(4, .ret [])], .returns⟩,
    ⟨4, [(5, .label 1), (6, .goto 1)], .jumps 4⟩]⟩

/-- The arm joins at the second branch, and nothing is left by way of the loop. -/
theorem trapping_leaves : FlowGraph.ofFunction trapping = .ok trappingGraph ∧
    trappingGraph.PostDominates 2 0 ∧ ¬ trappingGraph.PostDominates 1 0 ∧
    (∀ q, ¬ trappingGraph.PostDominates q 3) ∧ trappingGraph.CanLeave 3 ∧
    ¬ trappingGraph.CanLeave 4 := by
  have built : FlowGraph.ofFunction trapping = .ok (Layout.of trappingGraph).graph := by
    cbv
  have inside {n : Nat} (small : n < 5) : n < (Layout.of trappingGraph).graph.size := small
  obtain ⟨-, nearest, -⟩ := Layout.postDominators_correct built (inside (n := 0) (by decide))
  obtain ⟨returns, -, last⟩ := Layout.postDominators_correct built (inside (n := 3) (by decide))
  obtain ⟨loops, -, -⟩ := Layout.postDominators_correct built (inside (n := 4) (by decide))
  have joins : (Layout.of trappingGraph).immediatePostDominator? 0 = some 2 := by cbv
  have ends : (Layout.of trappingGraph).immediatePostDominator? 3 = none := by cbv
  have left : (Layout.of trappingGraph).postDominators.isReachable 3 = true := by cbv
  have trapped : (Layout.of trappingGraph).postDominators.isReachable 4 = false := by cbv
  obtain ⟨leaves, joined, every⟩ := (nearest 2).1 joins
  have out := returns.1 left
  refine ⟨built, joined, fun arm => ?_, (last.1 ends).resolve_left (absurd out), out, fun way => ?_⟩
  · -- the branch itself leads past the arm
    have straight := arm.2.2 [0, 2, 3] ⟨3, by decide +kernel, .step (by decide +kernel)
      (.step (by decide +kernel) (.one 3))⟩
    exact absurd straight (by decide)
  · exact Bool.false_ne_true (trapped.symm.trans (loops.2 way))

end Sample

end ClientScript
