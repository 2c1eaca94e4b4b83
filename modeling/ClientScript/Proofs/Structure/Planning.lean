import ClientScript.Proofs.Structure.Folding

/-!
What a plan is, by the exit of its block, and where its arms start: behind the block or the
blocks folded into its test, at a block that does the work of a successor.
-/
namespace ClientScript.Layout

variable {l : Layout}

inductive Planned (l : Layout) (placed : Marks) (n : Nat) (b : Block) (scope : Scope) :
    Marks → Plan → Prop where
  | straight {follow : Option Nat} (exit : b.exit = .returns ∧ follow = none ∨
      b.exit = .falls follow ∨ ∃ m, b.exit = .jumps m ∧ follow = some m) :
      Planned l placed n b scope placed (.straight b.statements follow)
  | loop {placed' : Marks} {t : Test} (answer : Bool)
      (stands : l.Stands .free n b placed placed' t) :
      Planned l placed n b scope placed'
        (.loop ⟨b.statements ++ t.prelude, t.expression, !answer⟩ n (t.leadsTo answer)
          (t.leadsTo !answer))
  | guarded {placed' : Marks} {t : Test} (side : Bool)
      (stands : l.Stands scope n b placed placed' t)
      (settled : l.mergePoint? n = some (t.leadsTo !side) ∨
        l.reaches (t.leadsTo side) (t.leadsTo !side) scope = false ∧
          l.escapes (t.leadsTo side) scope = false) :
      Planned l placed n b scope placed'
        (.guarded (b.statements ++ t.prelude) t.expression (t.leadsTo side == t.fallthrough)
          (t.leadsTo side) (scope.upTo (some (t.leadsTo !side))) (t.leadsTo !side))
  | forked {placed' : Marks} {t : Test} (side : Bool)
      (stands : l.Stands scope n b placed placed' t) :
      Planned l placed n b scope placed'
        (.forked (b.statements ++ t.prelude) t.expression (t.leadsTo side == t.fallthrough)
          (t.leadsTo side) (t.leadsTo !side) (scope.upTo ((l.mergePoint? n).or scope.stop))
          (l.mergePoint? n))
  | switched {e : Expr} {cases : List (Int32 × Nat)} {default : Nat} {follow : Option Nat}
      (exit : b.exit = .dispatches e cases default)
      (works : ∀ m, follow = some m → ∃ s, m = l.graph.forward s) :
      Planned l placed n b scope placed
        (.switched b.statements e (l.groupCases cases) (l.graph.forward default)
          (scope.upTo (follow.or scope.stop)) follow)

def Works (l : Layout) (n : Nat) : Prop := ∃ s, n = l.graph.forward s

theorem works_of_mergePoint {n m : Nat} (merge : l.mergePoint? n = some m) : l.Works m := by
  obtain ⟨d, -, rfl⟩ := Option.map_eq_some_iff.1 merge
  exact ⟨d, rfl⟩

/-- What passes from a block to its merge point holds all along a chain of post-dominators. -/
theorem chain_stays_closed {P : Nat → Prop}
    (closed : ∀ {n m}, P n → l.mergePoint? n = some m → P m) {scope : Scope} {budget : Nat}
    {chain : List Nat} {n m : Nat} (before : ∀ c ∈ chain, P c) (start : P n)
    (member : m ∈ l.postDominatorChain scope budget chain n) : P m := by
  induction budget generalizing chain n with
  | zero => exact before m member
  | succ budget ih =>
    have longer : ∀ c ∈ chain ++ [n], P c := by
      intro c member
      rcases List.mem_append.1 member with old | new
      · exact before c old
      · exact List.mem_singleton.1 new ▸ start
    rw [postDominatorChain] at member
    split at member
    · exact before m member
    · split at member
      · rename_i next merge
        exact ih longer (closed start merge) member
      · exact longer m member

theorem works_of_mem_chain {scope : Scope} {budget : Nat} {chain : List Nat} {n m : Nat}
    (before : ∀ c ∈ chain, l.Works c) (start : l.Works n)
    (member : m ∈ l.postDominatorChain scope budget chain n) : l.Works m :=
  chain_stays_closed (fun _ merge => works_of_mergePoint merge) before start member

theorem mem_chain_of_commonTail {targets : List Nat} {scope : Scope} {m : Nat}
    (tail : l.commonTail? targets scope = some m) :
    ∃ t ∈ targets, m ∈ l.postDominatorChain scope (l.graph.size + 1) [] t := by
  simp only [commonTail?] at tail
  split at tail
  · simp at tail
  · split at tail
    · simp at tail
    · rename_i best found
      split at tail
      · rw [← Option.some.inj tail]
        obtain ⟨chain, among, member⟩ := List.mem_flatten.1 (List.mem_of_find?_eq_some found)
        obtain ⟨t, target, rfl⟩ := List.mem_map.1 among
        exact ⟨t, target, member⟩
      · simp at tail

theorem works_of_commonTail {targets : List Nat} {scope : Scope} {m : Nat}
    (start : ∀ t ∈ targets, l.Works t) (tail : l.commonTail? targets scope = some m) :
    l.Works m := by
  obtain ⟨t, target, member⟩ := mem_chain_of_commonTail tail
  exact works_of_mem_chain (by simp) (start t target) member

theorem mem_groupCases {cases : List (Int32 × Nat)} {values : List Int32} {n : Nat}
    (member : (values, n) ∈ l.groupCases cases) :
    values = ((cases.filter fun c => l.graph.forward c.2 == n).map Prod.fst) ∧
      ∃ v s, (v, s) ∈ cases ∧ n = l.graph.forward s := by
  simp only [groupCases, List.mem_map, List.mem_filter, List.mem_range, List.any_eq_true,
    Prod.mk.injEq] at member
  obtain ⟨m, ⟨-, c, ⟨c', target, rfl⟩, same⟩, values, rfl⟩ := member
  refine ⟨?_, c'.1, c'.2, target, (beq_iff_eq.1 same).symm⟩
  rw [← values, List.filter_map, List.map_map]
  rfl

theorem groupCases_of_mem {cases : List (Int32 × Nat)} {v : Int32} {s : Nat}
    (member : (v, s) ∈ cases) (inside : l.graph.forward s < l.graph.size) :
    ∃ values, (values, l.graph.forward s) ∈ l.groupCases cases ∧ v ∈ values := by
  simp only [groupCases, List.mem_map, List.mem_filter, List.mem_range, List.any_eq_true,
    Prod.mk.injEq]
  refine ⟨_, ⟨l.graph.forward s, ⟨inside, _, ⟨(v, s), member, rfl⟩, by simp⟩, rfl, rfl⟩, ?_⟩
  exact List.mem_map.2 ⟨(v, l.graph.forward s),
    List.mem_filter.2 ⟨List.mem_map.2 ⟨(v, s), member, rfl⟩, by simp⟩, rfl⟩

theorem guardClause?_some {first second arm rest : Nat} {scope : Scope}
    (h : l.guardClause? first second scope = some (arm, rest)) :
    ((arm, rest) = (first, second) ∨ (arm, rest) = (second, first)) ∧
      l.reaches arm rest scope = false ∧ l.escapes arm scope = false := by
  have holds := List.find?_some h
  have member := List.mem_of_find?_eq_some h
  simp only [Bool.and_eq_true, Bool.not_eq_true'] at holds
  simp only [List.mem_cons, List.not_mem_nil, or_false] at member
  exact ⟨member, holds⟩

theorem sides (t : Test) : ∃ side, min t.taken t.fallthrough = t.leadsTo side ∧
    max t.taken t.fallthrough = t.leadsTo !side := by
  rcases Nat.le_total t.taken t.fallthrough with le | le
  · exact ⟨true, by simp [Test.leadsTo, le], by simp [Test.leadsTo, le]⟩
  · exact ⟨false, by simp [Test.leadsTo, le], by simp [Test.leadsTo, le]⟩

theorem planned_loop {placed placed' : Marks} {n : Nat} {b : Block} {scope : Scope} {plan : Plan}
    (wf : l.graph.WellFormed) (found : l.graph.block? n = some b)
    (h : l.planLoop placed b = .ok (placed', plan)) :
    l.Planned placed n b scope placed' plan := by
  simp only [planLoop, wf.index found] at h
  split at h
  · rename_i c x y exit
    have stands := stands_testOf wf placed .free found exit
    split at h
    · simp only [Except.ok.injEq, Prod.mk.injEq] at h
      obtain ⟨rfl, rfl⟩ := h
      exact .loop true stands
    · simp only [Except.ok.injEq, Prod.mk.injEq] at h
      obtain ⟨rfl, rfl⟩ := h
      exact .loop false stands
    · simp at h
  · simp at h

theorem planned_branch (wf : l.graph.WellFormed) (placed : Marks)
    (scope : Scope) {n : Nat} {b : Block} {c : Expr} {x y : Nat}
    (found : l.graph.block? n = some b) (exit : b.exit = .tests c x y) :
    l.Planned placed n b scope (l.planBranch placed b c x y scope).1
      (l.planBranch placed b c x y scope).2 := by
  have stands := stands_testOf wf placed scope found exit
  simp only [planBranch, wf.index found]
  generalize l.testOf placed scope n c x y = made at stands
  obtain ⟨placed', t⟩ := made
  change l.Stands scope n b placed placed' t at stands
  obtain ⟨side, first, second⟩ := sides t
  simp only [first, second]
  split
  · rename_i merge at_merge
    split
    · rename_i same
      subst same
      exact .guarded true stands (.inl at_merge)
    · split
      · rename_i same
        subst same
        exact .guarded false stands (.inl at_merge)
      · have := Planned.forked side stands
        rwa [at_merge] at this
  · rename_i no_merge
    split
    · rename_i arm rest guard
      obtain ⟨ordered, shut⟩ := guardClause?_some guard
      rcases ordered with same | same
      · obtain ⟨rfl, rfl⟩ := Prod.mk.inj same
        exact .guarded side stands (.inr shut)
      · obtain ⟨rfl, rfl⟩ := Prod.mk.inj same
        have := Planned.guarded (!side) stands (.inr (by simpa using shut))
        simpa using this
    · have := Planned.forked side stands
      rwa [no_merge] at this

theorem planned_of_plan {placed placed' : Marks} {n : Nat} {b : Block} {scope : Scope}
    {plan : Plan} (wf : l.graph.WellFormed)
    (found : l.graph.block? n = some b) (h : l.plan placed b scope = .ok (placed', plan)) :
    l.Planned placed n b scope placed' plan := by
  simp only [Layout.plan] at h
  split at h
  · exact planned_loop wf found h
  split at h
  · rename_i c x y exit
    have made := planned_branch wf placed scope found exit
    rwa [Except.ok.inj h] at made
  · rename_i e cases default exit
    simp only [Except.ok.injEq, Prod.mk.injEq] at h
    obtain ⟨rfl, rfl⟩ := h
    refine .switched exit ?_
    intro m merge
    rcases Option.or_eq_some_iff.1 merge with merge | ⟨-, tail⟩
    · exact works_of_mergePoint merge
    · refine works_of_commonTail ?_ tail
      intro t member
      rcases List.mem_append.1 member with target | last
      · obtain ⟨⟨values, n⟩, group, rfl⟩ := List.mem_map.1 target
        obtain ⟨-, v, s, -, same⟩ := mem_groupCases group
        exact ⟨s, same⟩
      · exact ⟨default, List.mem_singleton.1 last⟩
  · rename_i target exit
    simp only [Except.ok.injEq, Prod.mk.injEq] at h
    obtain ⟨rfl, rfl⟩ := h
    exact .straight (.inr (.inr ⟨target, exit, rfl⟩))
  · rename_i next exit
    simp only [Except.ok.injEq, Prod.mk.injEq] at h
    obtain ⟨rfl, rfl⟩ := h
    exact .straight (.inr (.inl exit))
  · rename_i exit
    simp only [Except.ok.injEq, Prod.mk.injEq] at h
    obtain ⟨rfl, rfl⟩ := h
    exact .straight (.inl ⟨exit, rfl⟩)

/-- A plan marks what is folded into the test of a branch, and for other blocks nothing. -/
theorem marks_of_plan {placed placed' : Marks} {b : Block} {scope : Scope} {plan : Plan}
    (planned : l.plan placed b scope = .ok (placed', plan)) :
    (∃ c x y, b.exit = .tests c x y ∧ placed' =
      (l.testOf placed (if l.isLoopHeader b.index then .free else scope) b.index c x y).1) ∨
    (∀ c x y, b.exit ≠ .tests c x y) ∧ placed' = placed := by
  unfold Layout.plan at planned
  split at planned
  · rename_i heads
    unfold planLoop at planned
    split at planned
    · rename_i c x y exit
      refine .inl ⟨c, x, y, exit, ?_⟩
      rw [if_pos heads]
      dsimp only at planned
      split at planned
      · exact (congrArg Prod.fst (Except.ok.inj planned)).symm
      · exact (congrArg Prod.fst (Except.ok.inj planned)).symm
      · cases planned
    · cases planned
  · rename_i plain
    split at planned
    · rename_i c x y exit
      refine .inl ⟨c, x, y, exit, ?_⟩
      rw [if_neg plain]
      exact (congrArg Prod.fst (Except.ok.inj planned)).symm
    all_goals
      rename_i exit
      exact .inr ⟨by simp [exit], (congrArg Prod.fst (Except.ok.inj planned)).symm⟩

theorem works_eq {n : Nat} (works : l.Works n) (plain : l.graph.Plain (l.graph.forward n)) :
    l.graph.forward n = n := by
  obtain ⟨s, rfl⟩ := works
  exact FlowGraph.plain_forward_forward plain

section

variable {placed placed' : Marks} {n : Nat} {b : Block} {scope : Scope} {plan : Plan}
  (planned : l.Planned placed n b scope placed' plan)

include planned

theorem Planned.leads (found : l.graph.block? n = some b) {t : Nat} {s : Scope}
    (arm : some (t, s) ∈ plan.arms) :
    l.graph.Through (fun x => x = n ∨ placed.Adds placed' x) n t ∧ l.Works t := by
  cases planned with
  | straight => simp [Plan.arms] at arm
  | loop answer stands =>
    simp only [Plan.arms, List.mem_singleton, Option.some.injEq, Prod.mk.injEq] at arm
    exact arm.1 ▸ ⟨stands.leads answer, stands.works answer⟩
  | guarded side stands =>
    simp only [Plan.arms, List.mem_singleton, Option.some.injEq, Prod.mk.injEq] at arm
    exact arm.1 ▸ ⟨stands.leads side, stands.works side⟩
  | forked side stands =>
    simp only [Plan.arms, List.mem_cons, Option.some.injEq, Prod.mk.injEq, List.not_mem_nil,
      or_false] at arm
    rcases arm with ⟨rfl, -⟩ | ⟨rfl, -⟩
    · exact ⟨stands.leads side, stands.works side⟩
    · exact ⟨stands.leads _, stands.works _⟩
  | @switched e cases default follow exit works =>
    simp only [Plan.arms, List.mem_map, List.mem_append, List.mem_singleton] at arm
    obtain ⟨m, target, same⟩ := arm
    split at same
    · simp at same
    · simp only [Option.some.injEq, Prod.mk.injEq] at same
      obtain ⟨rfl, -⟩ := same
      rcases target with ⟨⟨values, m⟩, group, rfl⟩ | rfl
      · obtain ⟨-, v, s, case, rfl⟩ := mem_groupCases group
        refine ⟨.step (.inl rfl) found ?_ (.here _), s, rfl⟩
        simp only [exit, Exit.successors, Exit.edges, List.map_append, List.map_map,
          List.mem_append, List.mem_map]
        exact .inl ⟨_, case, rfl⟩
      · refine ⟨.step (.inl rfl) found ?_ (.here _), default, rfl⟩
        simp [exit, Exit.successors, Exit.edges]

omit planned in
theorem Planned.leads_outside {c : Condition} {h inside outside : Nat}
    (planned : l.Planned placed n b scope placed' (.loop c h inside outside)) :
    l.graph.Through (fun x => x = n ∨ placed.Adds placed' x) n outside := by
  cases planned with
  | loop answer stands => exact stands.leads _

theorem Planned.inside_first (other : ∀ c inside outside, plan ≠ .loop c n inside outside) {x : Nat}
    (added : placed.Adds placed' x) : scope.endsAt x = false := by
  cases planned with
  | straight | switched => exact absurd added.1 added.2
  | loop => exact absurd rfl (other _ _ _)
  | guarded side stands => exact stands.inside x added
  | forked side stands => exact stands.inside x added

theorem Planned.works_follow {m : Nat} (follow : plan.follow? = some m) (arms : plan.arms ≠ []) :
    l.Works m := by
  cases planned with
  | straight => simp [Plan.arms] at arms
  | loop answer stands => exact Option.some.inj follow ▸ stands.works _
  | guarded side stands => exact Option.some.inj follow ▸ stands.works _
  | forked side stands => exact works_of_mergePoint follow
  | switched _ works => exact works m follow

end

end ClientScript.Layout
