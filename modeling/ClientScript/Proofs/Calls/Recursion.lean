import ClientScript.Proofs.Calls.History
import ClientScript.Proofs.Graph.Component

/-!
Recursion. A component with more than one member, or with a loop, is one whose members lead back to
themselves. Main statement: after any history the recursive scripts are those from which recorded
calls lead back, in one or more steps.
-/
namespace ClientScript

open Relation (TransGen ReflTransGen)

namespace Adjacency

variable {g : Adjacency} {u v w : Nat} {C : List Nat}

def Edge (g : Adjacency) (u v : Nat) : Prop := v ∈ g.next u

theorem reaches_iff : g.Reaches u v ↔ ReflTransGen g.Edge u v := by
  constructor
  · rintro ⟨nodes, walk⟩
    induction walk with
    | one u => exact .refl
    | step edge _ ih => exact .head edge ih
  · intro path
    induction path with
    | refl => exact .refl g u
    | tail _ edge ih => exact ih.trans (.edge edge)

theorem nodup_component (member : C ∈ g.components) : C.Nodup := by
  have distinct := (perm_components g).nodup_iff.2 List.nodup_range
  exact (List.nodup_flatten.1 distinct).1 C member

theorem returns_of_ne (member : C ∈ g.components) (here : v ∈ C) (there : w ∈ C) (ne : w ≠ v) :
    TransGen g.Edge v v := by
  obtain ⟨forth, back⟩ := ((isClass_component member).2 v here w).1 there
  rcases Relation.reflTransGen_iff_eq_or_transGen.1 (reaches_iff.1 forth) with same | path
  · exact absurd same ne
  · exact path.trans_left (reaches_iff.1 back)

/-- Only the members of cyclic components lead back to themselves. -/
theorem isCyclic_iff (member : C ∈ g.components) (here : v ∈ C) :
    CallGraph.isCyclic g C = true ↔ TransGen g.Edge v v := by
  match C, member, here with
  | [x], member, here =>
    obtain rfl := List.mem_singleton.1 here
    rw [CallGraph.isCyclic, List.contains_iff_mem]
    constructor
    · exact fun loop => .single loop
    · intro path
      obtain ⟨u, edge, back⟩ := TransGen.head'_iff.1 path
      have both : g.Reaches v u ∧ g.Reaches u v := ⟨.edge edge, reaches_iff.2 back⟩
      obtain rfl := List.mem_singleton.1 (((isClass_component member).2 v here u).2 both)
      exact edge
  | x :: y :: rest, member, here =>
    refine iff_of_true rfl ?_
    have differ : x ≠ y := fun same => by simpa [same] using nodup_component member
    by_cases first : x = v
    · have other : y ≠ v := fun second => differ (first.trans second.symm)
      exact returns_of_ne member here (by simp) other
    · exact returns_of_ne member here (by simp) first

theorem mem_cyclic_iff : v ∈ (g.components.filter (CallGraph.isCyclic g)).flatten ↔
    TransGen g.Edge v v := by
  simp only [List.mem_flatten, List.mem_filter]
  constructor
  · rintro ⟨C, ⟨member, cyclic⟩, here⟩
    exact (isCyclic_iff member here).1 cyclic
  · intro path
    obtain ⟨u, edge, -⟩ := TransGen.head'_iff.1 path
    obtain ⟨C, member, here⟩ := exists_component (g.inside v u edge).1
    exact ⟨C, ⟨member, (isCyclic_iff member here).2 path⟩, here⟩

end Adjacency

namespace CallGraph

variable {g : CallGraph} {a b s id : Int32} {u v w : Nat}

def Runs (calls : List Call) (a b : Int32) : Prop := ∃ t, ⟨a, b, t⟩ ∈ calls

theorem edge_iff : g.graph.adjacency.Edge u w ↔
    ∃ a b, g.graph.nodes[u]? = some a ∧ g.graph.nodes[w]? = some b ∧ Runs g.calls a b := by
  simp only [Adjacency.Edge, LabelledGraph.adjacency, LabelledGraph.outgoing_eq, List.mem_map,
    List.mem_filter, beq_iff_eq, Runs, calls, List.mem_filterMap]
  constructor
  · rintro ⟨e, ⟨member, rfl⟩, rfl⟩
    obtain ⟨c, found⟩ := exists_call (LabelledGraph.edge_of_numbered member)
    obtain ⟨source, target, -⟩ := call?_eq_some.1 found
    exact ⟨c.caller, c.callee, source, target, c.trigger, e, member, found⟩
  · rintro ⟨a, b, source, target, t, e, member, found⟩
    obtain ⟨source', target', -⟩ := call?_eq_some.1 found
    exact ⟨e, ⟨member, node_unique source' source⟩, node_unique target' target⟩

theorem transGen_iff (source : g.graph.nodes[u]? = some a) (target : g.graph.nodes[v]? = some b) :
    TransGen (Runs g.calls) a b ↔ TransGen g.graph.adjacency.Edge u v := by
  have named := g.named
  constructor
  · intro path
    have lifted := path.lift (p := g.graph.adjacency.Edge) (fun s => (g.nodes.get? s).getD 0) ?_
    · simpa [Function.onFun, (named a u).2 source, (named b v).2 target] using lifted
    · rintro c d ⟨t, call⟩
      obtain ⟨caller, callee⟩ := scripts_of_mem_calls call
      obtain ⟨x, at_x⟩ := mem_scripts.1 caller
      obtain ⟨y, at_y⟩ := mem_scripts.1 callee
      refine edge_iff.2 ⟨c, d, ?_, ?_, t, call⟩
      · simpa [at_x] using (named c x).1 at_x
      · simpa [at_y] using (named d y).1 at_y
  · intro path
    have lifted := path.lift (p := Runs g.calls) (fun x => g.graph.nodes[x]?.getD 0) ?_
    · simpa [Function.onFun, source, target] using lifted
    · intro x y edge
      obtain ⟨c, d, at_x, at_y, runs⟩ := edge_iff.1 edge
      simpa [Function.onFun, at_x, at_y] using runs

theorem mem_recursive (g : CallGraph) (id : Int32) :
    id ∈ g.recursive ↔ TransGen (Runs g.calls) id id := by
  simp only [recursive, IntMap.mem_sort, List.mem_filterMap, Adjacency.mem_cyclic_iff]
  constructor
  · rintro ⟨v, path, here⟩
    exact (transGen_iff here here).2 path
  · intro path
    obtain ⟨b, ⟨t, call⟩, -⟩ := TransGen.head'_iff.1 path
    obtain ⟨v, known⟩ := mem_scripts.1 (scripts_of_mem_calls call).1
    have here := (g.named id v).1 known
    exact ⟨v, (transGen_iff here here).1 path, here⟩

/-- After any history a script is recursive if and only if calls of the history lead from it, in one
    or more steps, back to it. -/
theorem recursive_iff_returns (history : List Operation) :
    (ofHistory history).recursive.Pairwise (· < ·) ∧ ∀ id,
      (id ∈ (ofHistory history).recursive ↔ TransGen (Runs (recorded history)) id id) ∧
      ((ofHistory history).isRecursive id = true ↔ TransGen (Runs (recorded history)) id id) := by
  have same : Runs (ofHistory history).calls = Runs (recorded history) := by
    funext a b
    simp only [Runs, mem_calls_ofHistory]
  refine ⟨IntMap.sort_ascending _, fun id => ?_⟩
  have returns := mem_recursive (ofHistory history) id
  rw [same] at returns
  refine ⟨returns, ?_⟩
  rw [isRecursive, List.contains_iff_mem]
  exact returns

example : (ofHistory [.record ⟨1, 2, .proc⟩, .record ⟨2, 3, .proc⟩, .record ⟨3, 2, .clientScript⟩,
    .record ⟨4, 4, .proc⟩]).recursive = [2, 3, 4] := by
  cbv

end CallGraph

end ClientScript
