import ClientScript.Proofs.Structure.Preservation

/-!
Running off the end. A tree has nothing that ends it but a return, so code that runs off its end
ends its tree only if nothing follows the last block there. Main statement: that is so exactly if
no plan goes on behind an arm that comes to the last block; one that does is shown.
-/
namespace ClientScript

open FlowGraph

theorem FlowGraph.last_of_falls {g : FlowGraph} (wf : g.WellFormed) {v : Nat} {b : Block}
    (found : g.block? v = some b) (falls : b.exit = .falls none) : v = g.size - 1 := by
  have inside := block_inside found
  have left := wf.leaves found
  rw [falls] at left
  generalize next : following g.size v = next at left
  generalize b.entries.getLast?.map (·.2) = last at left
  cases left with
  | falls =>
    unfold following at next
    split at next
    · simp at next
    · omega

/-- Nothing follows an arm of the plan in which control comes to `v`. -/
def Layout.Tail (l : Layout) (v : Nat) (plan : Plan) : Prop :=
  ∀ m t s, plan.follow? = some m → some (t, s) ∈ plan.arms → s.endsAt v = false →
    ¬ l.digraph.Way s.endsAt t v

section

variable {f : Function} {g : FlowGraph} (graph : ofFunction f = .ok g)

include graph

theorem Layout.tail_iff {plan : Plan} (made : plan ∈ (Layout.of g).plans) (v : Nat) :
    (Layout.of g).Tail v plan ↔ (Layout.of g).drops v plan = false := by
  constructor
  · intro tail
    by_contra dropped
    simp only [drops, Bool.not_eq_false, Bool.and_eq_true, Option.isSome_iff_exists,
      Option.any_eq_true, List.any_eq_true, Bool.not_eq_true'] at dropped
    obtain ⟨⟨m, follow⟩, _, arm, ⟨t, s⟩, rfl, outside, reached⟩ := dropped
    exact tail m t s follow arm outside ((reaches_iff_way graph made arm).1 reached)
  · intro keeps m t s follow arm outside way
    have dropped := drops_of_arm follow arm outside ((reaches_iff_way graph made arm).2 way)
    simp [dropped] at keeps

variable {t : Tree} {b : Block} (built : f.tree = .ok t) (last : g.block? (g.size - 1) = some b)
  (stays : ∀ plan ∈ (Layout.of g).plans, (Layout.of g).strays plan = false)

include built last stays

/-- A tree whose switches do not stray ends where its code runs off the end, with the statements
    of the last block, if nothing goes on behind an arm that comes to that block. -/
theorem Function.ends_of_tail
    (keeps : ∀ plan ∈ (Layout.of g).plans, (Layout.of g).drops (g.size - 1) plan = false)
    {o : Oracle} {n : Nat} {es : List Event}
    (off : (Machine.ofCode f.code.instructions).run o n 0 f.code.instructions = (es, some [])) :
    ∃ a before, Machine.ofTree.run o a 0 (Tree.load t) =
      (before ++ b.statements.map .executes, none) ∧
        shown (before ++ b.statements.map .executes) = shown es := by
  have wf := wellFormed_of_ofFunction graph
  have settled : ∀ plan ∈ (Layout.of g).plans, (Layout.of g).Settled plan := by
    refine fun plan made => ⟨stays plan made, fun v b _ found falls => ?_⟩
    rw [last_of_falls wf found falls]
    exact keeps plan made
  have code_ends : (Machine.ofCode f.code.instructions).Ends o f.code.instructions (shown es) := by
    have past : (Machine.ofCode f.code.instructions).run o 1 (0 + decisions es) [] = ([], none) :=
      Machine.run_one rfl
    have whole := Machine.run_trans off past
    exact ⟨n + 1, by rw [whole], by rw [whole, List.append_nil]⟩
  obtain ⟨c, ended, same⟩ := ((code_agrees graph o).2 (shown es)).1 code_ends
  have related := (Layout.of g).related_tree settled (tree_of_graph graph built)
  have run : (Machine.ofBlocks g).run o c 0 g.entry =
      (((Machine.ofBlocks g).run o c 0 g.entry).1, none) := Prod.ext rfl ended
  obtain ⟨a, fs, tree, alike, d, met, s, k, events, ⟨reached, -⟩, final_run, suffix⟩ :=
    (Layout.rounds_tree wf).ends_alike related run
  have inside : s < g.size := reaches_inside reached wf.nonempty
  obtain ⟨v, b', found, final, statements⟩ := ends_final wf inside final_run
  have shows := statements.trans suffix
  -- Code that runs off its end has shown no return, so the final block is the last one.
  have falls : b'.exit = .falls none := by
    cases exit : b'.exit with
    | falls next =>
      rw [exit] at final
      cases next with
      | none => rfl
      | some m => simp [Exit.isFinal] at final
    | returns =>
      obtain ⟨init, values, eq, -⟩ := wf.returns_last found exit
      have among : .executes (.ret values) ∈ shown es := by
        rw [← same, alike]
        refine List.mem_filter.2 ⟨shows.subset ?_, rfl⟩
        simp [eq]
      exact absurd (List.mem_of_mem_filter among) (no_return_shown off values)
    | jumps | tests | dispatches => simp [exit, Exit.isFinal] at final
  obtain rfl := last_of_falls wf found falls
  rw [last, Option.some.injEq] at found
  subst found
  obtain ⟨before, rfl⟩ := shows
  exact ⟨a, before, tree, alike.symm.trans same⟩

/-- A tree whose switches do not stray ends wherever its code runs off the end, and nothing
    follows the last block in it, exactly if no plan goes on behind an arm that comes there. -/
theorem Function.ends_and_tail_iff :
    ((∀ o n es,
        (Machine.ofCode f.code.instructions).run o n 0 f.code.instructions = (es, some []) →
        ∃ a before, Machine.ofTree.run o a 0 (Tree.load t) =
          (before ++ b.statements.map .executes, none) ∧
            shown (before ++ b.statements.map .executes) = shown es) ∧
      ∀ plan ∈ (Layout.of g).plans, (Layout.of g).Tail (g.size - 1) plan) ↔
    ∀ plan ∈ (Layout.of g).plans, (Layout.of g).drops (g.size - 1) plan = false := by
  constructor
  · rintro ⟨-, tail⟩ plan made
    exact (Layout.tail_iff graph made _).1 (tail plan made)
  · intro keeps
    constructor
    · exact fun o n es off => Function.ends_of_tail graph built last stays keeps off
    · exact fun plan made => (Layout.tail_iff graph made _).2 (keeps plan made)

end

namespace Sample

def closing : Function :=
  ⟨0, [], .ofList [.branch (probe 0) 0, probes 1, .label 0, probes 2], []⟩

def closingGraph : FlowGraph :=
  ⟨0, #[⟨0, [(0, .branch (probe 0) 0)], .tests (probe 0) 2 1⟩,
    ⟨1, [(1, probes 1)], .falls (some 2)⟩, ⟨2, [(2, .label 0), (3, probes 2)], .falls none⟩]⟩

def closingTree : Tree :=
  [.choice [(⟨[], probe 0, true⟩, [.seq [probes 1]])] none, .seq [probes 2]]

theorem closing_ends :
    (∀ o n es, (Machine.ofCode closing.code.instructions).run o n 0 closing.code.instructions =
        (es, some []) →
      ∃ a before, Machine.ofTree.run o a 0 (Tree.load closingTree) =
        (before ++ [.executes (probes 2)], none) ∧
          shown (before ++ [.executes (probes 2)]) = shown es) ∧
    ∀ plan ∈ (Layout.of closingGraph).plans, (Layout.of closingGraph).Tail 2 plan := by
  have clean : (Layout.of closingGraph).plans.all (fun plan =>
      !(Layout.of closingGraph).strays plan && !(Layout.of closingGraph).drops 2 plan) = true := by
    cbv
  have each := List.all_eq_true.1 clean
  simp only [Bool.and_eq_true, Bool.not_eq_true'] at each
  have last : closingGraph.block? 2 = some ⟨2, [(2, .label 0), (3, probes 2)], .falls none⟩ := rfl
  exact (Function.ends_and_tail_iff (f := closing) (by cbv) (by cbv) last
    fun plan made => (each plan made).1).2 fun plan made => (each plan made).2

/-- Code that returns in one arm of a choice and runs off its end in the other. -/
def falling : Function :=
  ⟨0, [], .ofList [.branch (probe 0) 0, probes 1, .goto 1, .label 0, .ret [], .label 1, probes 2],
    []⟩

def fallingGraph : FlowGraph :=
  ⟨0, #[⟨0, [(0, .branch (probe 0) 0)], .tests (probe 0) 2 1⟩,
    ⟨1, [(1, probes 1), (2, .goto 1)], .jumps 3⟩, ⟨2, [(3, .label 0), (4, .ret [])], .returns⟩,
    ⟨3, [(5, .label 1), (6, probes 2)], .falls none⟩]⟩

def fallingTree : Tree :=
  [.choice [(⟨[], probe 0, true⟩, [.seq [probes 1, probes 2]])] none, .seq [.ret []]]

/-- Where the code runs off its end, the tree goes on and returns. -/
theorem falling_goes_on :
    ofFunction falling = .ok fallingGraph ∧ falling.tree = .ok fallingTree ∧
      (∀ plan ∈ (Layout.of fallingGraph).plans, (Layout.of fallingGraph).strays plan = false) ∧
      ∃ o n es, (Machine.ofCode falling.code.instructions).run o n 0 falling.code.instructions =
          (es, some []) ∧
        ¬ ∃ a before, Machine.ofTree.run o a 0 (Tree.load fallingTree) =
          (before ++ [.executes (probes 2)], none) ∧
            shown (before ++ [.executes (probes 2)]) = shown es := by
  have steady : (Layout.of fallingGraph).plans.all
      (fun plan => !(Layout.of fallingGraph).strays plan) = true := by cbv
  refine ⟨by cbv, by cbv, fun plan made => by simpa using List.all_eq_true.1 steady plan made, ?_⟩
  let o : Oracle := ⟨fun _ => false, fun _ => 0⟩
  refine ⟨o, 4, [.tests (probe 0), .executes (probes 1), .executes (probes 2)], by cbv, ?_⟩
  rintro ⟨a, before, tree, -⟩
  have returned : Machine.ofTree.run o 4 0 (Tree.load fallingTree) =
      ([.tests (probe 0), .executes (probes 1), .executes (probes 2), .executes (.ret [])],
        none) := by cbv
  have same := congrArg List.getLast? (Machine.ended_unique returned tree)
  simp [probes] at same

end Sample

end ClientScript
