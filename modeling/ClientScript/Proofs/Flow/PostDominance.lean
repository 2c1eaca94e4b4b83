import ClientScript.Proofs.Flow.Control
import ClientScript.Proofs.Graph.Dominance

/-!
Post-dominance holds what its name says: from a block with an immediate post-dominator control
leaves the function only past the block that does the work of it. Ways in the graph are also what
searches inside a scope find.
-/
namespace ClientScript

namespace Digraph

variable {g : Digraph} {blocked : Nat → Bool}

theorem Way.trans {u v w : Nat} (h : g.Way blocked u v) (k : g.Way blocked v w) :
    g.Way blocked u w := by
  induction h with
  | here u => exact k
  | step free edge _ ih => exact .step free edge (ih k)

theorem Way.snoc {u v w : Nat} (h : g.Way blocked u v) (free : blocked v = false)
    (edge : w ∈ g.next v) : g.Way blocked u w :=
  h.trans (.step free edge (.here w))

theorem Way.reaches {u v : Nat} (h : g.Way blocked u v) : g.Reaches u v := by
  induction h with
  | here u => exact .refl g u
  | step _ edge _ ih =>
    obtain ⟨nodes, walk⟩ := ih
    exact ⟨_, .step edge walk⟩

theorem Way.inside {u v : Nat} (h : g.Way blocked u v) (start : u < g.size) : v < g.size := by
  induction h with
  | here u => exact start
  | step _ edge _ ih => exact ih (next_inside edge).2

theorem way_of_reaches {u v : Nat} (h : g.Reaches u v) : g.Way (fun _ => false) u v := by
  obtain ⟨nodes, walk⟩ := h
  induction walk with
  | one u => exact .here u
  | step edge _ ih => exact .step rfl edge ih

theorem way_of_cut {u v d : Nat} (way : g.Way (fun _ => false) u v)
    (cut : ¬ g.Way (· == d) u v) : g.Way (fun _ => false) d v := by
  induction way with
  | here u => exact absurd (.here u) cut
  | @step u w v free edge rest ih =>
    by_cases here : u = d
    · exact here ▸ .step free edge rest
    · exact ih fun later => cut (.step (by simpa using here) edge later)

theorem mem_next_ofEdges {size : Nat} {edges : List (Nat × Nat)} {u v : Nat} :
    v ∈ (ofEdges size edges).next u ↔ (u, v) ∈ edges ∧ u < size ∧ v < size := by
  rw [mem_next, ofEdges]
  simp

end Digraph

namespace FlowGraph

variable {g : FlowGraph} (wf : g.WellFormed)

theorem block_inside {n : Nat} {b : Block} (found : g.block? n = some b) : n < g.size :=
  (Array.getElem?_eq_some_iff.1 found).1

include wf

theorem mem_edges {u v : Nat} : (∃ k, (u, v, k) ∈ g.edges) ↔
    ∃ b, g.block? u = some b ∧ v ∈ b.exit.successors := by
  simp only [edges, List.mem_flatMap, List.mem_map, Exit.successors]
  constructor
  · rintro ⟨k, b, among, e, out, same⟩
    obtain ⟨n, at_n⟩ := List.mem_iff_getElem?.1 among
    have found : g.block? n = some b := by simpa [block?] using at_n
    rw [wf.index found, Prod.mk.injEq] at same
    exact ⟨b, same.1 ▸ found, e, out, congrArg Prod.fst same.2⟩
  · rintro ⟨b, found, ⟨t, k⟩, out, rfl⟩
    refine ⟨k, b, ?_, (t, k), out, by rw [wf.index found]⟩
    exact List.mem_iff_getElem?.2 ⟨u, by simpa [block?] using found⟩

theorem mem_next {u v : Nat} : v ∈ g.toDigraph.next u ↔
    ∃ b, g.block? u = some b ∧ v ∈ b.exit.successors := by
  rw [toDigraph, Digraph.mem_next_ofEdges, ← mem_edges wf]
  constructor
  · rintro ⟨among, -, -⟩
    obtain ⟨⟨u', v', k⟩, edge, same⟩ := List.mem_map.1 among
    obtain ⟨rfl, rfl⟩ := Prod.mk.inj same
    exact ⟨k, edge⟩
  · rintro ⟨k, edge⟩
    obtain ⟨b, found, out⟩ := (mem_edges wf).1 ⟨k, edge⟩
    exact ⟨List.mem_map.2 ⟨_, edge, rfl⟩, block_inside found, wf.successors_inside found out⟩

theorem mem_next_reversed {u v : Nat} {b : Block} (found : g.block? u = some b)
    (out : v ∈ b.exit.successors) : u ∈ g.reversed.next v := by
  obtain ⟨k, edge⟩ := (mem_edges wf).2 ⟨b, found, out⟩
  have inside := wf.successors_inside found out
  have := block_inside found
  refine Digraph.mem_next_ofEdges.2 ⟨List.mem_append_left _ ?_, by omega, by omega⟩
  exact List.mem_map.2 ⟨_, edge, rfl⟩

theorem final_next {v : Nat} {b : Block} (found : g.block? v = some b) (final : b.exit.isFinal) :
    v ∈ g.reversed.next g.virtualExit := by
  have := block_inside found
  refine Digraph.mem_next_ofEdges.2 ⟨List.mem_append_right _ (List.mem_map.2 ⟨v, ?_, rfl⟩), ?_, ?_⟩
  · refine List.mem_map.2 ⟨b, List.mem_filter.2 ⟨?_, final⟩, wf.index found⟩
    exact List.mem_iff_getElem?.2 ⟨v, by simpa [block?] using found⟩
  · rw [virtualExit]; omega
  · omega

theorem hop_edge {n : Nat} (jumps : ¬ g.Plain n) : g.hop n ∈ g.toDigraph.next n := by
  obtain ⟨b, found, exit, -⟩ := target_of_not_plain jumps
  exact (mem_next wf).2 ⟨b, found, by simp [exit, Exit.successors, Exit.edges]⟩

theorem hop_inside {n : Nat} (inside : n < g.size) : g.hop n < g.size := by
  by_cases plain : g.Plain n
  · rwa [hop_of_plain plain]
  · obtain ⟨b, found, exit, -⟩ := target_of_not_plain plain
    exact wf.successors_inside found (by simp [exit, Exit.successors, Exit.edges])

theorem forward_inside {n : Nat} (inside : n < g.size) : g.forward n < g.size := by
  have stays : ∀ k, g.hop^[k] n < g.size := by
    intro k
    induction k with
    | zero => exact inside
    | succ k ih => rw [Function.iterate_succ_apply']; exact hop_inside wf ih
  rw [forward_eq_iterate]
  exact stays g.size

theorem way_of_hops {blocked : Nat → Bool} (works : ∀ x, blocked x → g.Plain x) (k n : Nat) :
    g.toDigraph.Way blocked n (g.hop^[k] n) := by
  induction k generalizing n with
  | zero => exact .here n
  | succ k ih =>
    rw [Function.iterate_succ_apply]
    by_cases plain : g.Plain n
    · rw [hop_of_plain plain]
      exact ih n
    · have free : blocked n = false := by
        cases h : blocked n with
        | false => rfl
        | true => exact absurd (works n h) plain
      exact .step free (hop_edge wf plain) (ih (g.hop n))

theorem way_of_through {blocked : Nat → Bool} (works : ∀ x, blocked x → g.Plain x)
    {S : Nat → Prop} (free : ∀ x, S x → blocked x = false) {n e : Nat} (way : g.Through S n e) :
    g.toDigraph.Way blocked n e := by
  induction way with
  | here n => exact .here n
  | @step n s e b inside found edge _ ih =>
    have hops : g.toDigraph.Way blocked s (g.forward s) := by
      rw [forward_eq_iterate]
      exact way_of_hops wf works _ s
    exact .step (free n inside) ((mem_next wf).2 ⟨b, found, edge⟩) (hops.trans ih)

theorem Through.inside {S : Nat → Prop} {n e : Nat} (way : g.Through S n e) (start : n < g.size) :
    e < g.size := by
  induction way with
  | here n => exact start
  | step _ found edge _ ih => exact ih (forward_inside wf (wf.successors_inside found edge))

theorem way_back_of_hops {blocked : Nat → Bool} {u s k : Nat}
    (free : ∀ j, blocked (g.hop^[j + 1] s) = false)
    (way : g.reversed.Way blocked u (g.hop^[k] s)) : g.reversed.Way blocked u s := by
  induction k with
  | zero => exact way
  | succ k ih =>
    refine ih ?_
    by_cases plain : g.Plain (g.hop^[k] s)
    · rwa [Function.iterate_succ_apply', hop_of_plain plain] at way
    · obtain ⟨b, found, exit, -⟩ := target_of_not_plain plain
      refine way.snoc (free k) (mem_next_reversed wf found ?_)
      rw [Function.iterate_succ_apply']
      simp [exit, Exit.successors, Exit.edges]

/-- What control leaves the function from without passing the work of `d` is found from the
    virtual exit without passing `d`. -/
theorem way_back {d n v : Nat} {b : Block} (inside : d ≠ g.virtualExit)
    (way : g.Through (· ≠ g.forward d) n v) (other : v ≠ g.forward d)
    (found : g.block? v = some b) (final : b.exit.isFinal) :
    g.reversed.Way (· == d) g.virtualExit n := by
  induction way with
  | here n =>
    exact .step (by simpa using inside.symm) (final_next wf found final) (.here n)
  | @step n s v b' _ found' edge rest ih =>
    have later := ih other found
    have plain : g.Plain (g.forward s) := rest.plain_of_final rfl found final
    have differ : g.forward s ≠ g.forward d := by
      cases rest with
      | here => exact other
      | step inside => exact inside
    have free : ∀ j, ((g.hop^[j] s == d) : Bool) = false := by
      intro j
      rw [beq_eq_false_iff_ne]
      rintro rfl
      refine differ ?_
      have same : g.hop^[g.size] (g.hop^[j] s) = g.forward s := by
        rw [← Function.iterate_add_apply, Nat.add_comm, Function.iterate_add_apply,
          ← forward_eq_iterate, iterate_hop_of_plain plain]
      rw [← same, ← forward_eq_iterate]
    have back : g.reversed.Way (· == d) g.virtualExit s := by
      refine way_back_of_hops wf (k := g.size) (fun j => free (j + 1)) ?_
      rwa [← forward_eq_iterate]
    exact back.snoc (free 0) (mem_next_reversed wf found' edge)

end FlowGraph

namespace Digraph

theorem isReachable_iff {g : Digraph} {entry v : Nat} (inside : entry < g.size) :
    (g.dominators entry).isReachable v ↔ g.Reaches entry v :=
  Adjacency.isReachable_dominators inside

theorem Way.walk {g : Digraph} {blocked : Nat → Bool} {u v : Nat} (way : g.Way blocked u v) :
    ∃ nodes, Walk g.next u v nodes ∧ ∀ x ∈ nodes, x = v ∨ blocked x = false := by
  induction way with
  | here u => exact ⟨[u], .one u, by simp⟩
  | step free edge _ ih =>
    obtain ⟨nodes, walk, among⟩ := ih
    refine ⟨_, .step edge walk, fun x member => ?_⟩
    rcases List.mem_cons.1 member with rfl | later
    · exact .inr free
    · exact among x later

theorem not_way_of_strict {g : Digraph} {entry v d : Nat}
    (strict : g.adjacency.StrictlyDominates entry d v) : ¬ g.Way (· == d) entry v := by
  intro way
  obtain ⟨nodes, walk, among⟩ := way.walk
  rcases among d (strict.2.2 nodes walk) with same | free
  · exact strict.1 same
  · simp at free

end Digraph

theorem FlowGraph.next_reversed_inside {g : FlowGraph} {u v : Nat} (edge : v ∈ g.reversed.next u)
    (inside : u < g.size) : ∃ k, (v, u, k) ∈ g.edges := by
  rw [reversed, Digraph.mem_next_ofEdges] at edge
  rcases List.mem_append.1 edge.1 with back | final
  · obtain ⟨⟨v', u', k⟩, among, same⟩ := List.mem_map.1 back
    obtain ⟨rfl, rfl⟩ := Prod.mk.inj same
    exact ⟨k, among⟩
  · obtain ⟨n, -, same⟩ := List.mem_map.1 final
    have exit : g.virtualExit = u := congrArg Prod.fst same
    rw [virtualExit] at exit
    omega

theorem FlowGraph.reaches_of_reversed {g : FlowGraph} (wf : g.WellFormed) {blocked : Nat → Bool}
    {u v : Nat} (way : g.reversed.Way blocked u v) (inside : u < g.size) :
    g.toDigraph.Reaches v u := by
  induction way with
  | here u => exact .refl _ u
  | @step u w v _ edge _ ih =>
    obtain ⟨b, found, out⟩ := (mem_edges wf).1 (next_reversed_inside edge inside)
    have step : g.toDigraph.Reaches w u := ⟨_, .step ((mem_next wf).2 ⟨b, found, out⟩) (.one u)⟩
    exact (ih (block_inside found)).trans step

theorem Layout.reaches_postDominator {l : Layout} (wf : l.graph.WellFormed) {n d : Nat}
    (nearest : l.immediatePostDominator? n = some d) : l.graph.toDigraph.Reaches n d := by
  simp only [Layout.immediatePostDominator?, l.postDominators_eq, Option.filter_eq_some_iff,
    bne_iff_ne, ne_eq] at nearest
  obtain ⟨nearest, other⟩ := nearest
  have inside : l.graph.virtualExit < l.graph.reversed.size := Nat.lt_succ_self _
  have strict := ((Adjacency.immediate?_dominators inside).1 nearest).2.1
  have bound := (Digraph.way_of_reaches (strict.2.reaches inside)).inside inside
  have past :=
    Digraph.way_of_cut (Digraph.way_of_reaches strict.2.1) (Digraph.not_way_of_strict strict)
  have below : d < l.graph.size := by
    have le : d < l.graph.size + 1 := bound
    have ne : d ≠ l.graph.size := other
    omega
  exact FlowGraph.reaches_of_reversed wf past below

/-- Control leaves a block only past the work of its immediate post-dominator. -/
theorem Layout.passes_postDominator {l : Layout} (wf : l.graph.WellFormed) {n d : Nat}
    (nearest : l.immediatePostDominator? n = some d) : ¬ l.graph.Escapes (l.graph.forward d) n := by
  rintro ⟨v, b, way, other, found, final⟩
  simp only [Layout.immediatePostDominator?, l.postDominators_eq, Option.filter_eq_some_iff,
    bne_iff_ne, ne_eq] at nearest
  have back := FlowGraph.way_back wf nearest.2 way other found final
  have inside : l.graph.virtualExit < l.graph.reversed.size := Nat.lt_succ_self _
  have strict := ((Adjacency.immediate?_dominators inside).1 nearest.1).2.1
  exact Digraph.not_way_of_strict strict back

end ClientScript
