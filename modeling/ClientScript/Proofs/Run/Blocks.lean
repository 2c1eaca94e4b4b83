import ClientScript.Proofs.Flow.PostDominance
import ClientScript.Proofs.Run.Code

/-!
Runs of a block graph. Jumps show nothing, so a run comes from a block to the one that does its
work; what a run comes to is reached in the graph, and a run that ends does so behind the
statements of a final block.
-/
namespace ClientScript.FlowGraph

variable {g : FlowGraph} (o : Oracle) (met : Nat)

theorem run_block {n : Nat} {b : Block} (found : g.block? n = some b) :
    (Machine.ofBlocks g).run o 1 met n =
      (b.statements.map .executes ++ b.exit.asks o met, b.exit.leadsTo o met) :=
  Machine.run_one (by simp [Machine.ofBlocks, found])

theorem run_iterate_hop (k n : Nat) :
    ∃ a, (Machine.ofBlocks g).run o a met n = ([], some (g.hop^[k] n)) := by
  induction k generalizing n with
  | zero => exact ⟨0, rfl⟩
  | succ k ih =>
    obtain ⟨a, later⟩ := ih (g.hop n)
    rw [Function.iterate_succ_apply]
    by_cases plain : g.Plain n
    · rw [hop_of_plain plain] at later ⊢
      exact ⟨a, later⟩
    · obtain ⟨b, found, exit, body⟩ := target_of_not_plain plain
      have first : (Machine.ofBlocks g).run o 1 met n = ([], some (g.hop n)) := by
        rw [run_block o met found, exit]
        simp [Block.statements, body, Exit.asks, Exit.leadsTo]
      exact ⟨1 + a, Machine.run_trans first (by simpa using later)⟩

theorem run_forward (n : Nat) :
    ∃ a, (Machine.ofBlocks g).run o a met n = ([], some (g.forward n)) := by
  rw [forward_eq_iterate]
  exact run_iterate_hop o met g.size n

theorem leadsTo_successors {e : Exit} {s : Nat} (leads : e.leadsTo o met = some s) :
    s ∈ e.successors := by
  cases e with
  | returns => simp [Exit.leadsTo] at leads
  | falls next =>
    simp only [Exit.leadsTo] at leads
    simp [Exit.successors, Exit.edges, leads]
  | jumps target =>
    simp only [Exit.leadsTo, Option.some.injEq] at leads
    simp [Exit.successors, Exit.edges, leads]
  | tests c taken fallthrough =>
    simp only [Exit.leadsTo, Option.some.injEq] at leads
    simp only [Exit.successors, Exit.edges, List.map_cons, List.map_nil, List.mem_cons,
      List.not_mem_nil, or_false]
    split at leads
    · exact .inl leads.symm
    · exact .inr leads.symm
  | dispatches e cases default =>
    simp only [Exit.leadsTo, Option.some.injEq] at leads
    simp only [Exit.successors, Exit.edges, List.map_append, List.map_map, List.map_cons,
      List.map_nil, List.mem_append, List.mem_map, Function.comp_apply, List.mem_singleton]
    cases chosen : IntMap.find (o.value met) cases with
    | none => simp [← leads, chosen]
    | some n =>
      left
      rw [chosen, Option.getD_some] at leads
      subst leads
      exact ⟨(o.value met, n), IntMap.mem_of_find chosen, rfl⟩

variable {o met}

theorem reaches_of_run (wf : g.WellFormed) {a n s : Nat} {es : List Event}
    (run : (Machine.ofBlocks g).run o a met n = (es, some s)) : g.toDigraph.Reaches n s := by
  induction a generalizing met n es with
  | zero =>
    simp only [Machine.run, Prod.mk.injEq, Option.some.injEq] at run
    exact run.2 ▸ .refl _ _
  | succ a ih =>
    simp only [Machine.run] at run
    split at run
    · simp at run
    · rename_i es₁ t stepped
      simp only [Prod.mk.injEq] at run
      have later := ih (Prod.ext rfl run.2)
      refine .trans ?_ later
      cases found : g.block? n with
      | none => simp [Machine.ofBlocks, found] at stepped
      | some b =>
        simp only [Machine.ofBlocks, found, Prod.mk.injEq] at stepped
        have edge := (mem_next wf).2 ⟨b, found, leadsTo_successors o met stepped.2⟩
        exact ⟨_, .step edge (.one t)⟩

theorem reaches_of_through (wf : g.WellFormed) {S : Nat → Prop} {n e : Nat}
    (way : g.Through S n e) : g.toDigraph.Reaches n e := by
  induction way with
  | here n => exact .refl _ _
  | @step n s e b _ found edge _ ih =>
    have first : g.toDigraph.Reaches n s := ⟨_, .step ((mem_next wf).2 ⟨b, found, edge⟩) (.one s)⟩
    obtain ⟨a, hops⟩ := run_forward (g := g) ⟨fun _ => true, fun _ => 0⟩ 0 s
    exact (first.trans (reaches_of_run wf hops)).trans ih

theorem reaches_inside {n s : Nat} (reached : g.toDigraph.Reaches n s) (inside : n < g.size) :
    s < g.size := by
  obtain ⟨nodes, walk⟩ := reached
  induction walk with
  | one => exact inside
  | step edge _ ih => exact ih (Digraph.next_inside edge).2

theorem ends_final (wf : g.WellFormed) {a n : Nat} {es : List Event} (inside : n < g.size)
    (ended : (Machine.ofBlocks g).run o a met n = (es, none)) :
    ∃ v b, g.block? v = some b ∧ b.exit.isFinal ∧ b.statements.map .executes <:+ es := by
  induction a generalizing met n es with
  | zero => simp [Machine.run] at ended
  | succ a ih =>
    obtain ⟨b, found⟩ : ∃ b, g.block? n = some b := ⟨_, Array.getElem?_eq_getElem inside⟩
    have first := run_block o met found
    cases leads : b.exit.leadsTo o met with
    | none =>
      rw [leads] at first
      have whole := Machine.run_ended first a
      rw [Nat.add_comm, ended, Prod.mk.injEq] at whole
      have final : b.exit.isFinal ∧ b.exit.asks o met = [] := by
        generalize b.exit = exit at leads
        cases exit with
        | returns => exact ⟨rfl, rfl⟩
        | falls next =>
          simp only [Exit.leadsTo] at leads
          exact leads ▸ ⟨rfl, rfl⟩
        | jumps | tests | dispatches => simp [Exit.leadsTo] at leads
      refine ⟨n, b, found, final.1, ?_⟩
      rw [whole.1, final.2, List.append_nil]
    | some s =>
      rw [leads] at first
      obtain ⟨es₁, r, rest⟩ : ∃ es₁ r, (Machine.ofBlocks g).run o a
          (met + decisions (b.statements.map .executes ++ b.exit.asks o met)) s = (es₁, r) :=
        ⟨_, _, rfl⟩
      have whole := Machine.run_trans first rest
      rw [Nat.add_comm, ended, Prod.mk.injEq] at whole
      obtain ⟨rfl, rfl⟩ := whole
      have inside_s := wf.successors_inside found (leadsTo_successors o met leads)
      obtain ⟨v, b', found', final, last⟩ := ih inside_s rest
      exact ⟨v, b', found', final, last.trans (List.suffix_append ..)⟩

end ClientScript.FlowGraph
