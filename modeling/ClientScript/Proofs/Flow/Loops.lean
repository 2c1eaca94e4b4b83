import ClientScript.Proofs.Flow.WaysOut
import ClientScript.Proofs.Graph.Search

/-!
Loops of a block graph. The blocks that lead back to a header without passing it lead to a block
that it dominates, so that control cannot come to them but through the header. Main statement: the
searches mark what they are to mark, and a header dominates all of its loop that control reaches.
-/
namespace ClientScript

namespace Digraph

variable {g : Digraph} {header n : Nat} {latches : List Nat}

theorem has_naturalLoop (inside : header < g.size) (known : ∀ u ∈ latches, u < g.size) :
    (g.naturalLoop header latches).has n ↔ n = header ∨
      ∃ u ∈ latches, ∃ nodes, Walk g.next n u nodes ∧ header ∉ nodes := by
  have size : ((Marks.none g.size).mark header).bits.size = g.size := by
    rw [Marks.size_mark, size_none]
  have marked : ∀ x, ((Marks.none g.size).mark header).has x ↔ x = header := by
    intro x
    simp [Marks.has_mark, has_none, size_none, inside]
  rw [naturalLoop, if_pos inside, Marks.search_iff_walk _ _ _ (by simpa [size] using known)
    (fun u v edge => by rw [size]; exact (next_inside (mem_prev_iff_mem_next.1 edge)).1) n,
    marked]
  refine or_congr_right (exists_congr fun u => and_congr_right fun _ => ?_)
  -- the search goes backwards, so its paths are those to the latch read backwards
  constructor
  · rintro ⟨nodes, walk, avoids⟩
    refine ⟨nodes.reverse, walk.reversed fun _ _ => mem_prev_iff_mem_next.1, fun among => ?_⟩
    exact avoids header (List.mem_reverse.1 among) ((marked header).2 rfl)
  · rintro ⟨nodes, walk, avoids⟩
    refine ⟨nodes.reverse, walk.reversed fun _ _ => mem_prev_iff_mem_next.2, fun x among has => ?_⟩
    exact avoids ((marked x).1 has ▸ List.mem_reverse.1 among)

end Digraph

namespace Layout

variable {l : Layout} {header n : Nat}

theorem mem_latches {u : Nat} : u ∈ l.latches header ↔
    header ∈ l.digraph.next u ∧ l.dominators.dominates header u := by
  rw [latches, List.mem_filter, Digraph.mem_prev_iff_mem_next]

theorem dominates_iff (inside : l.graph.entry < l.digraph.size) {a b : Nat} :
    l.dominators.dominates a b ↔ l.digraph.adjacency.Dominates l.graph.entry a b := by
  rw [l.dominators_eq]
  exact Adjacency.dominates_dominators inside

/-- What comes to a block without passing another one is dominated by that if the block is. -/
theorem dominates_of_walk {entry a u : Nat} {nodes : List Nat}
    (dominates : l.digraph.adjacency.Dominates entry a u) (walk : Walk l.digraph.next n u nodes)
    (avoids : a ∉ nodes) (reached : l.digraph.Reaches entry n) :
    l.digraph.adjacency.Dominates entry a n := by
  refine ⟨reached, fun path first => ?_⟩
  obtain ⟨rest, rfl⟩ := walk.starts
  have among : a ∈ path ++ rest := dominates.2 _ (first.append walk)
  exact (List.mem_append.1 among).resolve_right fun later => avoids (List.mem_cons_of_mem _ later)

theorem header_dominates (loops : l.latches header ≠ [])
    (marked : (l.digraph.naturalLoop header (l.latches header)).has n)
    (reached : l.digraph.Reaches l.graph.entry n) :
    l.digraph.adjacency.Dominates l.graph.entry header n := by
  obtain ⟨u, latch⟩ := List.exists_mem_of_ne_nil _ loops
  have edge := Digraph.next_inside (mem_latches.1 latch).1
  have entry : l.graph.entry < l.digraph.size := Nat.zero_lt_of_lt edge.1
  have known : ∀ u ∈ l.latches header, u < l.digraph.size := fun u latch =>
    (Digraph.next_inside (mem_latches.1 latch).1).1
  rcases (Digraph.has_naturalLoop edge.2 known).1 marked with rfl | ⟨u, latch, nodes, walk, avoids⟩
  · exact ⟨reached, fun _ walk => walk.last_mem⟩
  · exact dominates_of_walk ((dominates_iff entry).1 (mem_latches.1 latch).2) walk avoids reached

end Layout

/-- A search marks just what a path leads to on which no node before the last one is blocked; a
    natural loop is its header and what leads to a latch without passing the header; and of the loop
    of a header that is jumped back to, the header dominates all that control reaches. -/
theorem searches_exact :
    (∀ (g : Digraph) (start : Nat) (blocked : Nat → Bool) (n : Nat),
      (g.reachable start blocked).has n ↔ start < g.size ∧
        ∃ nodes, Walk g.next start n nodes ∧ ∀ x ∈ nodes.dropLast, blocked x = false) ∧
    (∀ (g : Digraph) (header : Nat) (latches : List Nat), header < g.size →
      (∀ u ∈ latches, u < g.size) → ∀ n,
        (g.naturalLoop header latches).has n ↔ n = header ∨
          ∃ u ∈ latches, ∃ nodes, Walk g.next n u nodes ∧ header ∉ nodes) ∧
    ∀ (l : Layout) (header : Nat), l.latches header ≠ [] → ∀ n,
      (l.digraph.naturalLoop header (l.latches header)).has n →
      l.digraph.Reaches l.graph.entry n →
        l.dominators.dominates header n ∧
        ∀ nodes, Walk l.digraph.next l.graph.entry n nodes → header ∈ nodes := by
  refine ⟨fun g start blocked n => ?_, fun g header latches inside known n => ?_,
    fun l header loops n marked reached => ?_⟩
  · constructor
    · intro marked
      have inside := Digraph.inside_of_reachable marked
      exact ⟨inside, Digraph.way_iff_walk.1 ((Digraph.reachable_iff_way inside).1 marked)⟩
    · rintro ⟨inside, found⟩
      exact (Digraph.reachable_iff_way inside).2 (Digraph.way_iff_walk.2 found)
  · exact Digraph.has_naturalLoop inside known
  · have dominates := Layout.header_dominates loops marked reached
    have entry : l.graph.entry < l.digraph.size := by
      obtain ⟨u, latch⟩ := List.exists_mem_of_ne_nil _ loops
      exact Nat.zero_lt_of_lt (Digraph.next_inside (Layout.mem_latches.1 latch).1).1
    exact ⟨(Layout.dominates_iff entry).2 dominates, dominates.2⟩

namespace Sample

/-- A loop into which a block jumps that control does not come to. -/
def feeding : Function :=
  ⟨0, [], .ofList [.label 0, .branch asked 1, .label 2, .assign [] asked, .goto 0, .goto 2,
    .label 1, .ret []], []⟩

def feedingGraph : FlowGraph :=
  ⟨0, #[⟨0, [(0, .label 0), (1, .branch asked 1)], .tests asked 3 1⟩,
    ⟨1, [(2, .label 2), (3, .assign [] asked), (4, .goto 0)], .jumps 0⟩,
    ⟨2, [(5, .goto 2)], .jumps 1⟩, ⟨3, [(6, .label 1), (7, .ret [])], .returns⟩]⟩

/-- The jump into the loop belongs to it, though the header does not dominate it. -/
theorem feeding_searched : FlowGraph.ofFunction feeding = .ok feedingGraph ∧
    (Layout.of feedingGraph).latches 0 = [1] ∧
    (∃ nodes, Walk feedingGraph.toDigraph.next 2 1 nodes ∧ 0 ∉ nodes) ∧
    (¬ ∃ nodes, Walk feedingGraph.toDigraph.next 3 1 nodes ∧ 0 ∉ nodes) ∧
    (¬ ∃ nodes, Walk feedingGraph.toDigraph.next 2 3 nodes ∧
      ∀ x ∈ nodes.dropLast, (x == 0) = false) ∧
    (Layout.of feedingGraph).dominators.dominates 0 1 ∧
    ¬ (Layout.of feedingGraph).dominators.dominates 0 2 := by
  obtain ⟨ways, loop, dominated⟩ := searches_exact
  have inside : 0 < feedingGraph.toDigraph.size := by decide
  have latches : (Layout.of feedingGraph).latches 0 = [1] := by cbv
  have known : ∀ u ∈ [1], u < feedingGraph.toDigraph.size := by decide
  have marked (n : Nat) := loop feedingGraph.toDigraph 0 [1] inside known n
  have jump : (feedingGraph.toDigraph.naturalLoop 0 [1]).has 2 = true := by cbv
  have exit : (feedingGraph.toDigraph.naturalLoop 0 [1]).has 3 = false := by cbv
  have body : (feedingGraph.toDigraph.naturalLoop 0 [1]).has 1 = true := by cbv
  have stopped : (feedingGraph.toDigraph.reachable 2 (· == 0)).has 3 = false := by cbv
  have reached : (Layout.of feedingGraph).digraph.Reaches (Layout.of feedingGraph).graph.entry 1 :=
    ⟨[0, 1], .step (by decide) (.one 1)⟩
  have outside : (Layout.of feedingGraph).dominators.dominates 0 2 = false := by cbv
  refine ⟨by cbv, latches, ?_, fun found => ?_, fun found => ?_, ?_, by simp [outside]⟩
  · simpa using (marked 2).1 jump
  · have has := (marked 3).2 (.inr ⟨1, by simp, found⟩)
    simp [exit] at has
  · have has := (ways feedingGraph.toDigraph 2 (· == 0) 3).2 ⟨by decide, found⟩
    simp [stopped] at has
  · exact (dominated (Layout.of feedingGraph) 0 (by simp [latches]) 1 (latches.symm ▸ body)
      reached).1

end Sample

end ClientScript
