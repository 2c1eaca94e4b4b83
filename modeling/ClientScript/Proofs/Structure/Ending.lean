import ClientScript.Proofs.Structure.Planning

/-!
Where regions end. A region that was built starts at a block that does work, and control leaves
the function from it without passing a block placed before, if it does so from where the region
ends. From the inside out this says that the ends of a scope never lie inside its region, and
that an arm of a decision comes to no end but the one where the decision goes on.
-/
namespace ClientScript.Layout

variable {l : Layout} {P : Plan → Prop}

theorem marks_grow {plan : Plan} {marks : Nat → Marks} {x : Nat}
    (arms : ∀ i t s, plan.arms[i]? = some (some (t, s)) → (marks i).has x → (marks (i + 1)).has x)
    (skipped : ∀ i, plan.arms[i]? = some none → marks (i + 1) = marks i) {i j : Nat} (le : i ≤ j)
    (within : j ≤ plan.arms.length) (marked : (marks i).has x) : (marks j).has x := by
  induction j, le using Nat.le_induction with
  | base => exact marked
  | succ j le ih =>
    have before := ih (Nat.le_of_succ_le within)
    have within : j < plan.arms.length := within
    rcases at_j : plan.arms[j] with _ | ⟨t, s⟩
    · rw [skipped j (by simp [within, at_j])]
      exact before
    · exact arms j t s (by simp [within, at_j]) before

theorem Planned.grows {placed placed' : Marks} {n : Nat} {b : Block} {scope : Scope} {plan : Plan}
    (h : l.Planned placed n b scope placed' plan) {x : Nat} (marked : placed.has x) :
    placed'.has x := by
  cases h with
  | straight | switched => exact marked
  | loop _ stands => exact stands.grows x marked
  | guarded _ stands => exact stands.grows x marked
  | forked _ stands => exact stands.grows x marked

/-- A block with its plan, its arms and what follows it, as a region has them. -/
structure Stage (l : Layout) (P : Plan → Prop) (placed : Marks) (n : Nat) (b : Block)
    (scope : Scope) (plan : Plan) (marks : Nat → Marks) (body : Nat → List Piece)
    (placed' : Marks) (rest : List Piece) : Prop where
  inside : scope.endsAt n = false
  found : l.graph.block? n = some b
  opened : placed.isOpen n
  planned : l.Planned (placed.mark n) n b scope (marks 0) plan
  good : P plan
  arms : ∀ i t s, plan.arms[i]? = some (some (t, s)) →
    l.Built P (marks i) t s (marks (i + 1)) (body i)
  skipped : ∀ i, plan.arms[i]? = some none → marks (i + 1) = marks i ∧ body i = []
  onward : ∀ m, plan.follow? = some m → l.Built P (marks plan.arms.length) m scope placed' rest
  final : plan.follow? = none → placed' = marks plan.arms.length ∧ rest = []

theorem Built.grows {placed placed' : Marks} {start : Nat} {scope : Scope} {ps : List Piece}
    (wf : l.graph.WellFormed)
    (h : l.Built P placed start scope placed' ps) {x : Nat} (marked : placed.has x) :
    placed'.has x := by
  induction h with
  | ended => exact marked
  | @block placed placed' start scope b plan marks body rest inside found opened planned good arms
      skipped onward final ih_arms ih_onward =>
    have first : (marks 0).has x := (planned_of_plan wf found planned).grows (by
      simp [Marks.has_mark, marked])
    have last : (marks plan.arms.length).has x :=
      marks_grow ih_arms (fun i none => (skipped i none).1) (Nat.zero_le _) (Nat.le_refl _) first
    cases follow : plan.follow? with
    | none => exact (final follow).1 ▸ last
    | some m => exact ih_onward m follow last

section

variable (wf : l.graph.WellFormed)

include wf

theorem Built.cases_stage {placed placed' : Marks} {start : Nat} {scope : Scope} {ps : List Piece}
    (h : l.Built P placed start scope placed' ps) :
    (scope.endsAt (l.graph.forward start) ∧ placed' = placed ∧ ps = []) ∨
    ∃ b plan marks body rest,
      l.Stage P placed (l.graph.forward start) b scope plan marks body placed' rest ∧
      ps = Tree.attachAll (plan.assemble ((List.range plan.arms.length).map body)) rest := by
  cases h with
  | ended ends => exact .inl ⟨ends, rfl, rfl⟩
  | @block _ _ _ _ b plan marks body rest inside found opened planned good arms skipped onward
      final =>
    exact .inr ⟨b, plan, marks, body, rest, ⟨inside, found, opened,
      planned_of_plan wf found planned, good, arms, skipped, onward, final⟩, rfl⟩

end

section

variable {placed placed' : Marks} {n : Nat} {b : Block} {scope : Scope} {plan : Plan}
  {marks : Nat → Marks} {body : Nat → List Piece} {rest : List Piece}
  (wf : l.graph.WellFormed)
  (stage : l.Stage P placed n b scope plan marks body placed' rest)

include wf stage

theorem Stage.marks_grow {i j x : Nat} (le : i ≤ j) (within : j ≤ plan.arms.length)
    (marked : (marks i).has x) : (marks j).has x :=
  Layout.marks_grow (fun i t s arm => (stage.arms i t s arm).grows wf)
    (fun i none => (stage.skipped i none).1) le within marked

theorem Stage.grows_end {i x : Nat} (within : i ≤ plan.arms.length) (marked : (marks i).has x) :
    placed'.has x := by
  have last := stage.marks_grow wf within (Nat.le_refl _) marked
  cases follow : plan.follow? with
  | none => exact (stage.final follow).1 ▸ last
  | some m => exact (stage.onward m follow).grows wf last

theorem Stage.grows_start {i x : Nat} (within : i ≤ plan.arms.length) (marked : placed.has x) :
    (marks i).has x :=
  stage.marks_grow wf (Nat.zero_le _) within
    (stage.planned.grows (by simp [Marks.has_mark, marked]))

theorem Stage.has_self {i : Nat} (within : i ≤ plan.arms.length) : (marks i).has n :=
  stage.marks_grow wf (Nat.zero_le _) within
    (stage.planned.grows (Marks.has_mark_self stage.opened))

theorem Stage.adds_arm {i x : Nat} (within : i < plan.arms.length)
    (added : (marks i).Adds (marks (i + 1)) x) : placed.Adds placed' x :=
  ⟨stage.grows_end wf within added.1,
    fun old => added.2 (stage.grows_start wf (Nat.le_of_lt within) old)⟩

theorem Stage.adds_onward {x : Nat} (added : (marks plan.arms.length).Adds placed' x) :
    placed.Adds placed' x :=
  ⟨added.1, fun old => added.2 (stage.grows_start wf (Nat.le_refl _) old)⟩

theorem Stage.adds_first {x : Nat} (first : x = n ∨ (placed.mark n).Adds (marks 0) x) :
    placed.Adds placed' x := by
  rcases first with rfl | ⟨marked, fresh⟩
  · exact ⟨stage.grows_end wf (Nat.zero_le _) (stage.has_self wf (Nat.zero_le _)),
      (Marks.isOpen_iff.1 stage.opened).2⟩
  · refine ⟨stage.grows_end wf (Nat.zero_le _) marked, fun old => fresh ?_⟩
    simp [Marks.has_mark, old]

omit stage in
theorem Built.adds_first {start : Nat} {ps : List Piece}
    (h : l.Built P placed start scope placed' ps)
    (inside : scope.endsAt (l.graph.forward start) = false) :
    placed.Adds placed' (l.graph.forward start) := by
  rcases h.cases_stage wf with ⟨ends, -⟩ | ⟨b, plan, marks, body, rest, stage, -⟩
  · simp [inside] at ends
  · exact stage.adds_first wf (.inl rfl)

end

theorem endsAt_iff {s : Scope} {e : Nat} :
    s.endsAt e ↔ s.stop = some e ∨ s.header = some e := by
  simp [Scope.endsAt]

theorem ends_upTo {scope : Scope} {follow : Option Nat} {e : Nat}
    (ends : (scope.upTo (follow.or scope.stop)).endsAt e) :
    follow = some e ∨ scope.endsAt e := by
  rcases endsAt_iff.1 ends with stop | header
  · rcases Option.or_eq_some_iff.1 stop with here | ⟨-, outer⟩
    · exact .inl here
    · exact .inr (endsAt_iff.2 (.inl outer))
  · exact .inr (endsAt_iff.2 (.inr header))

section

variable (wf : l.graph.WellFormed)

include wf

theorem Built.plain {placed placed' : Marks} {start : Nat} {scope : Scope} {ps : List Piece}
    (h : l.Built P placed start scope placed' ps)
    (works : ∀ e, scope.endsAt e → l.graph.Plain e) : l.graph.Plain (l.graph.forward start) := by
  induction h with
  | ended ends => exact works _ ends
  | @block placed placed' start scope b plan marks body rest inside found opened planned good arms
      skipped onward final ih_arms ih_onward =>
    by_contra circle
    obtain ⟨b', found', exit', -⟩ := FlowGraph.target_of_not_plain circle
    rw [found, Option.some.injEq] at found'
    subst found'
    have made := planned_of_plan wf found planned
    generalize marks 0 = first at made
    cases made with
    | straight exit =>
      rcases exit with ⟨exit, -⟩ | exit | ⟨m, exit, rfl⟩
      · simp [exit'] at exit
      · simp [exit'] at exit
      · rw [exit', Exit.jumps.injEq] at exit
        have later := ih_onward m rfl works
        rw [← exit, FlowGraph.forward_eq_iterate, FlowGraph.forward_eq_iterate,
          ← Function.iterate_succ_apply, ← Function.iterate_add_apply] at later
        exact circle (FlowGraph.plain_forward later)
    | loop _ stands | guarded _ stands | forked _ stands =>
      obtain ⟨c, x, y, exit⟩ := stands.branches
      simp [exit'] at exit
    | switched exit => simp [exit'] at exit

theorem Built.escapes {placed placed' : Marks} {start : Nat} {scope : Scope} {ps : List Piece}
    (h : l.Built P placed start scope placed' ps) {x : Nat} (marked : placed.has x)
    (ends : ∀ e, scope.endsAt e → l.graph.Plain e ∧ l.graph.Escapes x e) :
    l.graph.Escapes x (l.graph.forward start) := by
  induction h with
  | ended at_end => exact (ends _ at_end).2
  | @block placed placed' start scope b plan marks body rest inside found opened planned good arms
      skipped onward final ih_arms ih_onward =>
    have stage : l.Stage P placed (l.graph.forward start) b scope plan marks body placed' rest :=
      ⟨inside, found, opened, planned_of_plan wf found planned, good, arms, skipped, onward,
        final⟩
    have other : l.graph.forward start ≠ x := by
      rintro rfl
      exact (Marks.isOpen_iff.1 opened).2 marked
    -- On the way to an arm there are only blocks that were open, and `x` was placed before.
    have avoids : ∀ {t}, l.graph.Through (fun y => y = l.graph.forward start ∨
        (placed.mark (l.graph.forward start)).Adds (marks 0) y) (l.graph.forward start) t →
          l.graph.Through (· ≠ x) (l.graph.forward start) t := by
      intro t way
      refine way.mono fun y first => ?_
      rcases first with rfl | added
      · exact other
      · rintro rfl
        exact added.2 (by simp [Marks.has_mark, marked])
    have onward_plain : ∀ m, plan.follow? = some m → l.graph.Plain (l.graph.forward m) :=
      fun m follow => (onward m follow).plain wf fun e at_end => (ends e at_end).1
    have onward_escapes : ∀ m, plan.follow? = some m → l.graph.Escapes x (l.graph.forward m) :=
      fun m follow => ih_onward m follow
        (stage.grows_start wf (Nat.le_refl _) marked) ends
    have arm_escapes : ∀ (i t : Nat) (s : Scope), plan.arms[i]? = some (some (t, s)) →
        s = scope.upTo (plan.follow?.or scope.stop) →
          l.graph.Escapes x (l.graph.forward start) := by
      intro i t s arm upTo
      have member := List.mem_of_getElem? arm
      obtain ⟨way, works⟩ := stage.planned.leads found member
      have arm_ends : ∀ e, s.endsAt e → l.graph.Plain e ∧ l.graph.Escapes x e := by
        intro e at_end
        rcases ends_upTo (upTo ▸ at_end) with follow | outer
        · have same := works_eq (stage.planned.works_follow follow (List.ne_nil_of_mem member))
            (onward_plain e follow)
          exact ⟨same ▸ onward_plain e follow, same ▸ onward_escapes e follow⟩
        · exact ends e outer
      have later := ih_arms i t s arm (stage.grows_start wf
        (Nat.le_of_lt (List.getElem?_eq_some_iff.1 arm).1) marked) arm_ends
      rw [works_eq works ((arms i t s arm).plain wf fun e at_end =>
        (arm_ends e at_end).1)] at later
      exact later.prepend (avoids way)
    -- Control escapes from where the plan goes on or, if it need not go on, by way of an arm.
    have made := stage.planned
    generalize marks 0 = first at made avoids
    cases made with
    | @straight follow exit =>
      rcases exit with ⟨exit, rfl⟩ | exit | ⟨m, exit, rfl⟩
      · exact ⟨_, b, .here _, other, found, by simp [exit, Exit.isFinal]⟩
      · cases follow with
        | none => exact ⟨_, b, .here _, other, found, by simp [exit, Exit.isFinal]⟩
        | some m =>
          refine (onward_escapes m rfl).prepend (.step other found (s := m) ?_ (.here _))
          simp [exit, Exit.successors, Exit.edges]
      · refine (onward_escapes m rfl).prepend (.step other found (s := m) ?_ (.here _))
        simp [exit, Exit.successors, Exit.edges]
    | @loop _ t answer stands =>
      have later := onward_escapes _ rfl
      rw [works_eq (stands.works _) (onward_plain _ rfl)] at later
      exact later.prepend (avoids (stands.leads _))
    | @guarded _ t side stands settled =>
      have later := onward_escapes _ rfl
      rw [works_eq (stands.works _) (onward_plain _ rfl)] at later
      exact later.prepend (avoids (stands.leads _))
    | @forked _ t side stands => exact arm_escapes 0 _ _ rfl rfl
    | @switched e cases default follow exit works =>
      by_cases same : follow = some (l.graph.forward default)
      · have later := onward_escapes _ same
        rw [works_eq ⟨default, rfl⟩ (onward_plain _ same)] at later
        refine later.prepend (.step other found ?_ (.here _))
        simp [exit, Exit.successors, Exit.edges]
      · refine arm_escapes (l.groupCases cases).length (l.graph.forward default)
          (scope.upTo (follow.or scope.stop)) ?_ rfl
        simp [Plan.arms, same]

end

/-- The ends of a region seen from inside it: control leaves the function from each without
    passing the other or anything that the region adds. -/
structure Context (l : Layout) (scope : Scope) (placed placed' : Marks) : Prop where
  plain : ∀ e, scope.endsAt e → l.graph.Plain e
  apart : ∀ s h, scope.stop = some s → scope.header = some h → h ≠ s → l.graph.Escapes s h
  fresh : ∀ e x, scope.endsAt e → placed.Adds placed' x → l.graph.Escapes x e

theorem context_free (placed placed' : Marks) : l.Context .free placed placed' :=
  ⟨by simp [Scope.endsAt, Scope.free], by simp [Scope.free], by simp [Scope.endsAt, Scope.free]⟩

theorem Context.outside {scope : Scope} {placed placed' : Marks}
    (context : l.Context scope placed placed') {x : Nat} (added : placed.Adds placed' x) :
    scope.endsAt x = false := by
  cases at_end : scope.endsAt x with
  | false => rfl
  | true => exact absurd rfl (context.fresh x x at_end added).ne

theorem Context.reaches {scope : Scope} {placed placed' : Marks} (wf : l.graph.WellFormed)
    (context : l.Context scope placed placed') {t e : Nat} (inside : t < l.graph.size)
    (way : l.graph.Through (placed.Adds placed') t e) : l.reaches t e scope := by
  rw [Layout.reaches, l.digraph_eq]
  exact Digraph.reachable_of_way
    (FlowGraph.way_of_through wf context.plain (fun _ => context.outside) way) inside

section

variable {placed placed' : Marks} {n : Nat} {b : Block} {scope : Scope} {plan : Plan}
  {marks : Nat → Marks} {body : Nat → List Piece} {rest : List Piece}
  (wf : l.graph.WellFormed)
  (stage : l.Stage P placed n b scope plan marks body placed' rest)
  (context : l.Context scope placed placed')

include wf stage context

theorem Stage.plain_follow {m : Nat} (follow : plan.follow? = some m) :
    l.graph.Plain (l.graph.forward m) :=
  (stage.onward m follow).plain wf context.plain

theorem Stage.follow_eq {m i t : Nat} {s : Scope} (follow : plan.follow? = some m)
    (arm : plan.arms[i]? = some (some (t, s))) : l.graph.forward m = m :=
  works_eq (stage.planned.works_follow follow (List.ne_nil_of_mem (List.mem_of_getElem? arm)))
    (stage.plain_follow wf context follow)

theorem Stage.follow_escapes {m i x : Nat} (follow : plan.follow? = some m)
    (within : i ≤ plan.arms.length) (marked : (marks i).has x) (fresh : ¬ placed.has x) :
    l.graph.Escapes x (l.graph.forward m) := by
  have added : placed.Adds placed' x := ⟨stage.grows_end wf within marked, fresh⟩
  refine (stage.onward m follow).escapes wf
    (stage.marks_grow wf within (Nat.le_refl _) marked) ?_
  exact fun e at_end => ⟨context.plain e at_end, context.fresh e x at_end added⟩

theorem Stage.context_onward : l.Context scope (marks plan.arms.length) placed' :=
  ⟨context.plain, context.apart,
    fun e x at_end added => context.fresh e x at_end (stage.adds_onward wf added)⟩

theorem Stage.header_escapes {m h : Nat} (follow : plan.follow? = some m)
    (same : l.graph.forward m = m) (header : scope.header = some h) (differ : h ≠ m) :
    l.graph.Escapes m h := by
  cases at_end : scope.endsAt m with
  | true =>
    rcases endsAt_iff.1 at_end with stop | other
    · exact context.apart m h stop header differ
    · rw [header, Option.some.injEq] at other
      exact absurd other differ
  | false =>
    have added := (stage.onward m follow).adds_first wf (by rwa [same])
    rw [same] at added
    exact context.fresh h m (endsAt_iff.2 (.inr header)) (stage.adds_onward wf added)

theorem Stage.context_arm {i t : Nat} {s : Scope} (arm : plan.arms[i]? = some (some (t, s)))
    (upTo : s = scope.upTo (plan.follow?.or scope.stop)) :
    l.Context s (marks i) (marks (i + 1)) := by
  have within : i < plan.arms.length := (List.getElem?_eq_some_iff.1 arm).1
  refine ⟨?_, ?_, ?_⟩
  · intro e at_end
    rcases ends_upTo (upTo ▸ at_end) with follow | outer
    · exact stage.follow_eq wf context follow arm ▸
        stage.plain_follow wf context follow
    · exact context.plain e outer
  · intro a h stop header differ
    subst upTo
    cases follow : plan.follow? with
    | some m =>
      obtain rfl : m = a := by simpa [Scope.upTo, follow] using stop
      exact stage.header_escapes wf context follow
        (stage.follow_eq wf context follow arm) header differ
    | none => exact context.apart a h (by simpa [Scope.upTo, follow] using stop) header differ
  · intro e x at_end added
    have outer := stage.adds_arm wf within added
    rcases ends_upTo (upTo ▸ at_end) with follow | outer_end
    · have := stage.follow_escapes wf context follow within added.1 outer.2
      rwa [stage.follow_eq wf context follow arm] at this
    · exact context.fresh e x outer_end outer

theorem Stage.context_body {c : Condition} {inside outside : Nat} (plain : l.graph.Plain n)
    (loop : plan = .loop c n inside outside) :
    l.Context ⟨some n, some n⟩ (marks 0) (marks 1) := by
  subst loop
  refine ⟨?_, ?_, ?_⟩
  · intro e at_end
    obtain rfl : n = e := by simpa [Scope.endsAt] using at_end
    exact plain
  · intro s h stop header differ
    exact absurd ((Option.some.inj header).symm.trans (Option.some.inj stop)) differ
  · intro e x at_end added
    obtain rfl : n = e := by simpa [Scope.endsAt] using at_end
    have fresh : ¬ placed.has x := fun old =>
      added.2 (stage.grows_start wf (Nat.zero_le _) old)
    have leaves := stage.follow_escapes wf context (m := outside) rfl (Nat.le_refl 1)
      added.1 fresh
    rw [stage.follow_eq wf context (i := 0) rfl rfl] at leaves
    refine leaves.prepend (stage.planned.leads_outside.mono fun y first => ?_)
    rintro rfl
    refine added.2 ?_
    rcases first with rfl | ⟨marked, -⟩
    · exact stage.has_self wf (Nat.zero_le _)
    · exact marked

omit context in
theorem Stage.first_ne_follow {m x : Nat} (follow : plan.follow? = some m)
    (same : l.graph.forward m = m)
    (inside : ∀ x, (placed.mark n).Adds (marks 0) x → scope.endsAt x = false)
    (first : x = n ∨ (placed.mark n).Adds (marks 0) x) : x ≠ m := by
  rintro rfl
  cases at_end : scope.endsAt x with
  | true =>
    rcases first with rfl | added
    · simp [stage.inside] at at_end
    · simp [inside x added] at at_end
  | false =>
    have later := (stage.onward x follow).adds_first wf (by rwa [same])
    rw [same] at later
    refine later.2 (stage.marks_grow wf (Nat.zero_le _) (Nat.le_refl _) ?_)
    rcases first with rfl | added
    · exact stage.has_self wf (Nat.zero_le _)
    · exact added.1

omit context in
theorem Stage.way_arm {i t e : Nat} {s : Scope} (arm : plan.arms[i]? = some (some (t, s)))
    (way : l.graph.Through ((marks i).Adds (marks (i + 1))) t e) :
    l.graph.Through (placed.Adds placed') n e := by
  have within : i < plan.arms.length := (List.getElem?_eq_some_iff.1 arm).1
  have start := (stage.planned.leads stage.found (List.mem_of_getElem? arm)).1
  refine (start.mono fun x first => stage.adds_first wf first).trans ?_
  exact way.mono fun x added => stage.adds_arm wf within added

omit context in
theorem Stage.arm_inside {t : Nat} {s : Scope} (arm : some (t, s) ∈ plan.arms) :
    t < l.graph.size :=
  (stage.planned.leads stage.found arm).1.inside wf (FlowGraph.block_inside stage.found)

/-- An arm comes to no end but where its decision goes on. -/
theorem Stage.settled {m i t e : Nat} {s : Scope} (follow : plan.follow? = some m)
    (arm : plan.arms[i]? = some (some (t, s)))
    (upTo : s = scope.upTo (plan.follow?.or scope.stop))
    (other : ∀ c inside outside, plan ≠ .loop c n inside outside)
    (settles : l.strays plan = false)
    (way : l.graph.Through ((marks i).Adds (marks (i + 1))) t e) (at_end : s.endsAt e) : e = m := by
  by_contra differ
  have member := List.mem_of_getElem? arm
  have within : i < plan.arms.length := (List.getElem?_eq_some_iff.1 arm).1
  have same := stage.follow_eq wf context follow arm
  have inner := stage.context_arm wf context arm upTo
  have header : scope.header = some e := by
    rcases endsAt_iff.1 at_end with stop | header
    · rw [upTo, follow] at stop
      exact absurd (Option.some.inj stop).symm differ
    · rw [upTo] at header
      exact header
  have outer_end : scope.endsAt e := endsAt_iff.2 (.inr header)
  have m_end : s.endsAt m := endsAt_iff.2 (.inl (by rw [upTo, follow]; rfl))
  -- Control would leave the block past the loop header, without passing where the plan goes on.
  have leaves : l.graph.Escapes m n := by
    have from_header := stage.header_escapes wf context follow same header differ
    have from_arm := from_header.prepend
      (way.mono fun x added => (inner.fresh m x m_end added).ne.symm)
    refine from_arm.prepend ((stage.planned.leads stage.found member).1.mono fun x first => ?_)
    exact stage.first_ne_follow wf follow same
      (fun x added => stage.planned.inside_first other added) first
  have unmerged : l.mergePoint? n ≠ some m := by
    intro merge
    obtain ⟨d, nearest, rfl⟩ := Option.map_eq_some_iff.1 merge
    exact passes_postDominator wf nearest leaves
  have outer_way := way.mono fun x added => stage.adds_arm wf within added
  have reached := context.reaches wf (stage.arm_inside wf member) outer_way
  have reached_inner := inner.reaches wf (stage.arm_inside wf member) way
  have strayed : (plan.follow?.any fun m => plan.arms.any fun arm => arm.any fun a =>
      a.2.header.any fun h => h != m && l.reaches a.1 h a.2) = true := by
    have header_inner : s.header = some e := by rw [upTo]; exact header
    simp only [follow, Option.any_some, List.any_eq_true]
    exact ⟨_, member, by simp [header_inner, differ, reached_inner]⟩
  have made := stage.planned
  generalize marks 0 = first at made
  cases made with
  | straight => simp [Plan.arms] at arm
  | loop => exact absurd rfl (other _ _ _)
  | guarded side stands guard =>
    simp only [Plan.arms, List.mem_singleton, Option.some.injEq, Prod.mk.injEq] at member
    rw [member.1] at reached
    rcases guard with merge | ⟨-, shut⟩
    · exact unmerged (merge.trans follow)
    · simp [Layout.escapes, header, reached] at shut
  | forked side stands => exact unmerged follow
  | switched exit works =>
    exact absurd (strayed.symm.trans settles) (by simp)

end

end ClientScript.Layout
