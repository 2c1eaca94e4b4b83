import ClientScript.Proofs.Structure.Contents
import ClientScript.Proofs.Structure.Preservation

/-!
Structuring loses and duplicates nothing. What a region consists of, with what the blocks placed
before it consist of, is what the blocks placed after it consist of. The blocks placed for a whole
function are those that control can reach, but for blocks that do nothing. Main statement: the
statements, conditions and switches of a tree are those of the reached blocks, each as often.
-/
namespace ClientScript

namespace FlowGraph

def marked (g : FlowGraph) (m : Marks) : List Block :=
  ((List.range g.size).filter m.has).filterMap g.block?

def contentsOf (g : FlowGraph) (m : Marks) : List Event := (g.marked m).flatMap Block.contents

/-- The events, with what the blocks marked before consist of, are what the blocks marked after
    consist of. -/
def Emits (g : FlowGraph) (es : List Event) (m m' : Marks) : Prop :=
  (es ++ g.contentsOf m).Perm (g.contentsOf m')

variable {g : FlowGraph} {m m' m'' : Marks} {es fs : List Event}

theorem Emits.nil (g : FlowGraph) (m : Marks) : g.Emits [] m m := .refl _

theorem Emits.trans (first : g.Emits es m m') (later : g.Emits fs m' m'') :
    g.Emits (es ++ fs) m m'' :=
  calc (es ++ fs) ++ g.contentsOf m
    _ = es ++ (fs ++ g.contentsOf m) := List.append_assoc ..
    _ |>.Perm (fs ++ (es ++ g.contentsOf m)) := List.perm_append_comm_assoc ..
    _ |>.Perm (fs ++ g.contentsOf m') := first.append_left fs
    _ |>.Perm (g.contentsOf m'') := later

theorem Emits.perm (h : g.Emits es m m') (same : fs.Perm es) : g.Emits fs m m' :=
  (same.append_right _).trans h

theorem emits_range {part : Nat → List Event} {marks : Nat → Marks} (count : Nat)
    (each : ∀ i < count, g.Emits (part i) (marks i) (marks (i + 1))) :
    g.Emits ((List.range count).flatMap part) (marks 0) (marks count) := by
  induction count with
  | zero => exact .nil g _
  | succ count ih =>
    have before := ih fun i lt => each i (Nat.lt_succ_of_lt lt)
    rw [List.range_succ, List.flatMap_append, List.flatMap_singleton]
    exact before.trans (each count (Nat.lt_succ_self _))

theorem emits_mark {n : Nat} {b : Block} (found : g.block? n = some b) (opened : m.isOpen n) :
    g.Emits b.contents m (m.mark n) := by
  obtain ⟨inside, fresh⟩ := Marks.isOpen_iff.1 opened
  have marked : (n :: (List.range g.size).filter m.has).Perm
      ((List.range g.size).filter (m.mark n).has) := by
    have nodup := List.nodup_range (n := g.size)
    rw [List.perm_ext_iff_of_nodup]
    · intro x
      simp only [List.mem_cons, List.mem_filter, List.mem_range, Marks.has_mark, inside,
        decide_true, Bool.and_true, Bool.or_eq_true, beq_iff_eq]
      constructor
      · rintro (rfl | ⟨bound, old⟩)
        · exact ⟨block_inside found, .inr rfl⟩
        · exact ⟨bound, .inl old⟩
      · rintro ⟨bound, old | rfl⟩
        · exact .inr ⟨bound, old⟩
        · exact .inl rfl
    · exact List.nodup_cons.2 ⟨by simp [fresh], nodup.filter _⟩
    · exact nodup.filter _
  have blocks := (marked.filterMap g.block?).flatMap_right Block.contents
  rwa [List.filterMap_cons_some found, List.flatMap_cons] at blocks

end FlowGraph

namespace Layout

open FlowGraph

variable {l : Layout}

theorem leaves_joinTests {opcode : Opcode} (short : opcode = .shortOr ∨ opcode = .shortAnd)
    (left right : Expr) : (joinTests opcode left right).leaves = left.leaves ++ right.leaves := by
  rw [joinTests, Expr.leaves, if_pos short]

theorem testContents_extendTest {t : Test} {f : Fold}
    (short : f.opcode = .shortOr ∨ f.opcode = .shortAnd) :
    (testContents (extendTest t f).prelude (extendTest t f).expression).Perm
      (testContents t.prelude t.expression ++ testContents f.statements f.condition) := by
  simp only [extendTest, testContents, leaves_joinTests short, List.map_append, List.append_assoc]
  exact (List.perm_append_comm_assoc _ _ _).append_left _

theorem fold?_some (wf : l.graph.WellFormed) {placed : Marks} {scope : Scope} {folded : List Nat}
    {t : Test} {f : Fold} (h : l.fold? placed scope folded t = some f) :
    (f.opcode = .shortOr ∨ f.opcode = .shortAnd) ∧ placed.isOpen f.block ∧
      (f.block = t.taken ∨ f.block = t.fallthrough) ∧
      ∃ b x y, l.graph.block? f.block = some b ∧ b.exit = .tests f.condition x y ∧
        b.statements = f.statements ∧ f.taken = l.graph.forward x ∧
        f.fallthrough = l.graph.forward y := by
  rcases Option.or_eq_some_iff.1 h with h | ⟨-, h⟩
  · obtain ⟨⟨candidate, opcode, -⟩, block, -, opened, -⟩ := foldBy?_some wf h
    exact ⟨.inl opcode, opened, .inr candidate, block⟩
  · obtain ⟨⟨candidate, opcode, -⟩, block, -, opened, -⟩ := foldBy?_some wf h
    exact ⟨.inr opcode, opened, .inl candidate, block⟩

theorem emits_foldAll (wf : l.graph.WellFormed) (scope : Scope) (budget : Nat) (placed : Marks)
    (folded : List Nat) (t : Test) : ∃ es,
      (testContents (l.foldAll scope budget placed folded t).2.prelude
        (l.foldAll scope budget placed folded t).2.expression).Perm
          (testContents t.prelude t.expression ++ es) ∧
      l.graph.Emits es placed (l.foldAll scope budget placed folded t).1 := by
  induction budget generalizing placed folded t with
  | zero => exact ⟨[], by simp [foldAll], .nil _ _⟩
  | succ budget ih =>
    rw [foldAll]
    cases taken : l.fold? placed scope folded t with
    | none => exact ⟨[], by simp, .nil _ _⟩
    | some f =>
      obtain ⟨short, opened, -, b, x, y, found, exit, statements, -⟩ := fold?_some wf taken
      obtain ⟨es, perm, later⟩ :=
        ih (placed.mark f.block) (folded ++ [f.block]) (extendTest t f)
      have own : b.contents = testContents f.statements f.condition := by
        rw [Block.contents, exit, statements]
        rfl
      refine ⟨b.contents ++ es, perm.trans ?_, (emits_mark found opened).trans later⟩
      rw [own, ← List.append_assoc]
      exact (testContents_extendTest short).append_right es

theorem emits_testOf (wf : l.graph.WellFormed) {placed : Marks} (scope : Scope) {n : Nat}
    {b : Block} {c : Expr} {x y : Nat} (found : l.graph.block? n = some b)
    (opened : placed.isOpen n) (exit : b.exit = .tests c x y) :
    l.graph.Emits (testContents
        (b.statements ++ (l.testOf (placed.mark n) scope n c x y).2.prelude)
        (l.testOf (placed.mark n) scope n c x y).2.expression)
      placed (l.testOf (placed.mark n) scope n c x y).1 := by
  obtain ⟨es, perm, later⟩ := emits_foldAll wf scope l.graph.size (placed.mark n) [n]
    ⟨[], c, l.graph.forward x, l.graph.forward y⟩
  refine ((emits_mark found opened).trans later).perm ?_
  have own : b.contents = b.statements.map .executes ++ testContents [] c := by
    rw [Block.contents, exit]
    rfl
  rw [testContents_append, own, List.append_assoc]
  exact perm.append_left _

theorem contents_planBranch (placed : Marks) (b : Block) (condition : Expr)
    (taken fallthrough : Nat) (scope : Scope) :
    (l.planBranch placed b condition taken fallthrough scope).2.contents =
      testContents
        (b.statements ++ (l.testOf placed scope b.index condition taken fallthrough).2.prelude)
        (l.testOf placed scope b.index condition taken fallthrough).2.expression := by
  simp only [planBranch]
  split
  · split
    · rfl
    · split <;> rfl
  · split <;> rfl

theorem emits_plan (wf : l.graph.WellFormed) {placed placed' : Marks} {n : Nat} {b : Block}
    {scope : Scope} {plan : Plan} (found : l.graph.block? n = some b) (opened : placed.isOpen n)
    (h : l.plan (placed.mark n) b scope = .ok (placed', plan)) :
    l.graph.Emits plan.contents placed placed' := by
  have first := emits_mark found opened
  simp only [Layout.plan] at h
  split at h
  · simp only [planLoop, wf.index found] at h
    split at h
    · rename_i c x y exit
      have emits := emits_testOf wf .free found opened exit
      split at h
      · simp only [Except.ok.injEq, Prod.mk.injEq] at h
        obtain ⟨rfl, rfl⟩ := h
        exact emits
      · simp only [Except.ok.injEq, Prod.mk.injEq] at h
        obtain ⟨rfl, rfl⟩ := h
        exact emits
      · simp at h
    · simp at h
  · rw [Block.contents] at first
    split at h <;> rename_i exit <;> simp only [exit, Exit.contents, List.append_nil] at first
    · rename_i c x y
      have emits := emits_testOf wf scope found opened exit
      have contents := l.contents_planBranch (placed.mark n) b c x y scope
      rw [wf.index found] at contents
      have placed_eq : (l.planBranch (placed.mark n) b c x y scope).1 =
          (l.testOf (placed.mark n) scope n c x y).1 := by
        rw [← wf.index found]
        rfl
      rw [Except.ok.inj h] at contents placed_eq
      rw [contents, show placed' = _ from placed_eq]
      exact emits
    · simp only [Except.ok.injEq, Prod.mk.injEq] at h
      obtain ⟨rfl, rfl⟩ := h
      exact first
    · simp only [Except.ok.injEq, Prod.mk.injEq] at h
      obtain ⟨rfl, rfl⟩ := h
      exact first
    · simp only [Except.ok.injEq, Prod.mk.injEq] at h
      obtain ⟨rfl, rfl⟩ := h
      exact first
    · simp only [Except.ok.injEq, Prod.mk.injEq] at h
      obtain ⟨rfl, rfl⟩ := h
      exact first

theorem Built.emits (wf : l.graph.WellFormed) {P : Plan → Prop} {placed placed' : Marks}
    {start : Nat} {scope : Scope} {ps : List Piece}
    (h : l.Built P placed start scope placed' ps) :
    l.graph.Emits (Tree.contents ps) placed placed' := by
  induction h with
  | ended => exact .nil _ _
  | @block placed placed' start scope b plan marks body rest inside found opened planned good arms
      skipped onward final ih_arms ih_onward =>
    have own := emits_plan wf found opened planned
    have branched : ∀ ps ∈ (List.range plan.arms.length).map body, Tree.Branched ps := by
      intro ps member
      obtain ⟨i, within, rfl⟩ := List.mem_map.1 member
      have within := List.mem_range.1 within
      rcases at_i : plan.arms[i] with _ | ⟨t, s⟩
      · rw [(skipped i (by simp [within, at_i])).2]
        simp [Tree.Branched]
      · exact (arms i t s (by simp [within, at_i])).branched
    have bodies : l.graph.Emits
        (((List.range plan.arms.length).map body).flatMap Tree.contents) (marks 0)
        (marks plan.arms.length) := by
      rw [List.flatMap_map]
      apply emits_range
      intro i within
      rcases at_i : plan.arms[i] with _ | ⟨t, s⟩
      · obtain ⟨same, none⟩ := skipped i (by simp [within, at_i])
        rw [same, none]
        exact .nil _ _
      · exact ih_arms i t s (by simp [within, at_i])
    have onward : l.graph.Emits (Tree.contents rest) (marks plan.arms.length) placed' := by
      cases follow : plan.follow? with
      | none =>
        obtain ⟨rfl, rfl⟩ := final follow
        exact .nil _ _
      | some m => exact ih_onward m follow
    rw [Tree.contents_attachAll, plan.contents_assemble (by simp) branched]
    exact (own.trans bodies).trans onward

def Reached (l : Layout) (n : Nat) : Prop := l.graph.toDigraph.Reaches l.graph.entry n

section

variable (wf : l.graph.WellFormed)

include wf

theorem Reached.successor {n s : Nat} {b : Block} (h : l.Reached n)
    (found : l.graph.block? n = some b) (edge : s ∈ b.exit.successors) : l.Reached s :=
  h.trans ⟨_, .step ((mem_next wf).2 ⟨b, found, edge⟩) (.one s)⟩

theorem Reached.forward {n : Nat} (h : l.Reached n) : l.Reached (l.graph.forward n) := by
  have hops : l.graph.toDigraph.Way (fun _ => false) n (l.graph.forward n) := by
    rw [forward_eq_iterate]
    exact way_of_hops wf (by simp) _ n
  exact h.trans hops.reaches

theorem Reached.mergePoint {n m : Nat} (h : l.Reached n) (merge : l.mergePoint? n = some m) :
    l.Reached m := by
  obtain ⟨d, nearest, rfl⟩ := Option.map_eq_some_iff.1 merge
  exact Reached.forward wf (h.trans (reaches_postDominator wf nearest))

theorem Reached.of_mem_chain {scope : Scope} {budget : Nat} {chain : List Nat} {n m : Nat}
    (before : ∀ c ∈ chain, l.Reached c) (start : l.Reached n)
    (member : m ∈ l.postDominatorChain scope budget chain n) : l.Reached m :=
  chain_stays_closed (fun reached merge => reached.mergePoint wf merge) before start member

theorem Reached.commonTail {targets : List Nat} {scope : Scope} {m : Nat}
    (start : ∀ t ∈ targets, l.Reached t) (tail : l.commonTail? targets scope = some m) :
    l.Reached m := by
  obtain ⟨t, target, member⟩ := mem_chain_of_commonTail tail
  exact Reached.of_mem_chain wf (by simp) (start t target) member

theorem Reached.follow {placed placed' : Marks} {n m : Nat} {b : Block} {scope : Scope}
    {plan : Plan} (h : l.Reached n) (found : l.graph.block? n = some b)
    (planned : l.plan placed b scope = .ok (placed', plan)) (follow : plan.follow? = some m) :
    l.Reached m := by
  have made := planned_of_plan wf found planned
  cases made with
  | straight exit =>
    obtain rfl : _ = some m := follow
    rcases exit with ⟨-, none⟩ | exit | ⟨m', exit, same⟩
    · simp at none
    · exact h.successor wf found (by simp [exit, Exit.successors, Exit.edges])
    · obtain rfl := Option.some.inj same
      exact h.successor wf found (by simp [exit, Exit.successors, Exit.edges])
  | loop answer stands =>
    obtain rfl := Option.some.inj follow
    exact h.trans (reaches_of_through wf (stands.leads _))
  | guarded side stands =>
    obtain rfl := Option.some.inj follow
    exact h.trans (reaches_of_through wf (stands.leads _))
  | forked side stands => exact h.mergePoint wf follow
  | @switched e cases default follow' exit works =>
    obtain rfl : follow' = some m := follow
    simp only [Layout.plan, planLoop, exit] at planned
    split at planned
    · simp at planned
    · have goes : (l.mergePoint? b.index).or (l.commonTail?
          ((l.groupCases cases).map Prod.snd ++ [l.graph.forward default]) scope) = some m :=
        congrArg (fun r => r.2.follow?) (Except.ok.inj planned)
      rcases Option.or_eq_some_iff.1 goes with merge | ⟨-, tail⟩
      · exact h.mergePoint wf (wf.index found ▸ merge)
      · refine Reached.commonTail wf ?_ tail
        intro t target
        rcases List.mem_append.1 target with case | last
        · obtain ⟨⟨values, t'⟩, group, rfl⟩ := List.mem_map.1 case
          obtain ⟨-, v, s, member, rfl⟩ := mem_groupCases group
          refine (h.successor wf found (s := s) ?_).forward wf
          simp only [exit, Exit.successors, Exit.edges, List.map_append, List.map_map,
            List.mem_append, List.mem_map]
          exact .inl ⟨_, member, rfl⟩
        · rw [List.mem_singleton.1 last]
          exact (h.successor wf found (by simp [exit, Exit.successors, Exit.edges])).forward wf

theorem reached_foldAll {scope : Scope} (budget : Nat) {placed : Marks} {folded : List Nat}
    {t : Test} (taken : l.Reached t.taken) (fallthrough : l.Reached t.fallthrough) {x : Nat}
    (marked : (l.foldAll scope budget placed folded t).1.has x) : placed.has x ∨ l.Reached x := by
  induction budget generalizing placed folded t with
  | zero => exact .inl marked
  | succ budget ih =>
    rw [foldAll] at marked
    cases takes : l.fold? placed scope folded t with
    | none =>
      rw [takes] at marked
      exact .inl marked
    | some f =>
      rw [takes] at marked
      obtain ⟨-, -, candidate, b, x', y', found, exit, -, onTaken, onFallthrough⟩ :=
        fold?_some wf takes
      have here : l.Reached f.block := by
        rcases candidate with same | same
        · exact same ▸ taken
        · exact same ▸ fallthrough
      have edges : x' ∈ b.exit.successors ∧ y' ∈ b.exit.successors := by
        simp [exit, Exit.successors, Exit.edges]
      have nextTaken : l.Reached (extendTest t f).taken := by
        rw [extendTest, onTaken]
        exact (here.successor wf found edges.1).forward wf
      have nextFallthrough : l.Reached (extendTest t f).fallthrough := by
        rw [extendTest, onFallthrough]
        exact (here.successor wf found edges.2).forward wf
      rcases ih nextTaken nextFallthrough marked with old | reached
      · rcases Marks.has_of_has_mark old with old | rfl
        · exact .inl old
        · exact .inr here
      · exact .inr reached

theorem reached_plan {placed placed' : Marks} {n : Nat} {b : Block} {scope : Scope} {plan : Plan}
    (h : l.Reached n) (found : l.graph.block? n = some b)
    (planned : l.plan placed b scope = .ok (placed', plan)) {x : Nat} (marked : placed'.has x) :
    placed.has x ∨ l.Reached x := by
  rcases marks_of_plan planned with ⟨c, x', y', exit, rfl⟩ | ⟨-, rfl⟩
  · have edges : x' ∈ b.exit.successors ∧ y' ∈ b.exit.successors := by
      simp [exit, Exit.successors, Exit.edges]
    exact reached_foldAll wf _ ((h.successor wf found edges.1).forward wf)
      ((h.successor wf found edges.2).forward wf) marked
  · exact .inl marked

theorem Built.reached {P : Plan → Prop} {placed placed' : Marks} {start : Nat} {scope : Scope}
    {ps : List Piece} (h : l.Built P placed start scope placed' ps) (first : l.Reached start)
    {x : Nat} (marked : placed'.has x) : placed.has x ∨ l.Reached x := by
  induction h with
  | ended => exact .inl marked
  | @block placed placed' start scope b plan marks body rest inside found opened planned good arms
      skipped onward final ih_arms ih_onward =>
    have here := first.forward wf
    have made := planned_of_plan wf found planned
    have before : ∀ i ≤ plan.arms.length, (marks i).has x → placed.has x ∨ l.Reached x := by
      intro i within marked
      induction i with
      | zero =>
        rcases reached_plan wf here found planned marked with old | reached
        · rcases Marks.has_of_has_mark old with old | rfl
          · exact .inl old
          · exact .inr here
        · exact .inr reached
      | succ i ih =>
        have lt : i < plan.arms.length := within
        rcases at_i : plan.arms[i] with _ | ⟨t, s⟩
        · rw [(skipped i (by simp [lt, at_i])).1] at marked
          exact ih (Nat.le_of_lt within) marked
        · have arm : plan.arms[i]? = some (some (t, s)) := by simp [lt, at_i]
          have way := (made.leads found (List.mem_of_getElem? arm)).1
          have further := here.trans (reaches_of_through wf way)
          rcases ih_arms i t s arm further marked with old | reached
          · exact ih (Nat.le_of_lt within) old
          · exact .inr reached
    cases follow : plan.follow? with
    | none => exact before _ (Nat.le_refl _) ((final follow).1 ▸ marked)
    | some m =>
      rcases ih_onward m follow (here.follow wf found planned follow) marked with old | reached
      · exact before _ (Nat.le_refl _) old
      · exact .inr reached

end

end Layout

namespace FlowGraph

variable {g : FlowGraph}

def reached (g : FlowGraph) : List Block :=
  g.marked (g.toDigraph.reachable g.entry fun _ => false)

theorem has_reachable_iff (wf : g.WellFormed) {n : Nat} :
    (g.toDigraph.reachable g.entry fun _ => false).has n ↔
      g.toDigraph.Reaches g.entry n :=
  (Digraph.reachable_iff_way wf.nonempty).trans ⟨Digraph.Way.reaches, Digraph.way_of_reaches⟩

theorem mem_reached (wf : g.WellFormed) {b : Block} :
    b ∈ g.reached ↔ ∃ n, g.toDigraph.Reaches g.entry n ∧ g.block? n = some b := by
  simp only [reached, marked, List.mem_filterMap, List.mem_filter, List.mem_range]
  constructor
  · rintro ⟨n, ⟨-, marked⟩, found⟩
    exact ⟨n, (has_reachable_iff wf).1 marked, found⟩
  · rintro ⟨n, reached, found⟩
    exact ⟨n, ⟨block_inside found, (has_reachable_iff wf).2 reached⟩, found⟩

theorem contentsOf_congr {m m' : Marks}
    (same : ∀ n b, g.block? n = some b → m.has n ≠ m'.has n → b.contents = []) :
    g.contentsOf m = g.contentsOf m' := by
  unfold contentsOf marked
  induction List.range g.size with
  | nil => rfl
  | cons n ns ih =>
    rw [List.filter_cons, List.filter_cons]
    cases found : g.block? n with
    | none => split <;> split <;> simp [found, ih]
    | some b =>
      by_cases eq : m.has n = m'.has n
      · rw [eq]
        split
        · simp [found, ih]
        · exact ih
      · have none := same n b found eq
        split <;> split <;> simp [found, ih, none]

theorem contentsOf_none (g : FlowGraph) (size : Nat) : g.contentsOf (.none size) = [] := by
  simp [contentsOf, marked, Digraph.has_none]

end FlowGraph

/-- A block that has no place although control comes to it does nothing. -/
theorem Layout.contents_of_not_isMissing {l : Layout} (wf : l.graph.WellFormed) {placed : Marks}
    {n : Nat} {b : Block} (found : l.graph.block? n = some b) (reached : l.Reached n)
    (unplaced : placed.has n = false) (present : l.isMissing placed b = false) :
    b.contents = [] := by
  have reachable : l.dominators.isReachable b.index := by
    rw [l.dominators_eq, l.digraph_eq, wf.index found]
    exact (Digraph.isReachable_iff wf.nonempty).2 reached
  have idle : b.body = [] ∧ b.exit.isDecision = false := by
    simp only [isMissing, wf.index found ▸ unplaced, reachable, Bool.not_false, Bool.true_and,
      Bool.and_true, Bool.and_eq_false_iff, Bool.or_eq_false_iff, Bool.not_eq_false',
      List.isEmpty_iff] at present
    rcases present with hops | idle
    · unfold Block.trampoline? at hops
      split at hops
      · rename_i target exit
        split at hops
        · rename_i empty
          exact ⟨by simpa using empty, by rw [exit]; rfl⟩
        · simp at hops
      · simp at hops
    · exact idle
  have quiet : b.exit.contents = [] := by
    cases exit : b.exit with
    | tests | dispatches => simp [exit, Exit.isDecision] at idle
    | returns | falls | jumps => rfl
  rw [Block.contents, quiet, Block.statements, idle.1]
  rfl

theorem Layout.contents_tree {l : Layout} (wf : l.graph.WellFormed) {t : Tree}
    (built : l.tree = .ok t) :
    (Tree.contents t).Perm (l.graph.reached.flatMap Block.contents) := by
  simp only [tree, bind, Except.bind] at built
  split at built
  · simp at built
  · rename_i made region
    obtain ⟨placed, pieces⟩ := made
    simp only at built
    split at built
    · simp at built
    · rename_i none_missing
      have derived := built_of_region (P := fun _ => True) region fun _ _ _ _ => trivial
      have emitted := derived.emits wf
      rw [FlowGraph.Emits, FlowGraph.contentsOf_none, List.append_nil] at emitted
      have same : l.graph.contentsOf placed = l.graph.reached.flatMap Block.contents := by
        apply FlowGraph.contentsOf_congr
        intro n b found differ
        have among : b ∈ l.graph.blocks.toList :=
          List.mem_iff_getElem?.2 ⟨n, by simpa [FlowGraph.block?] using found⟩
        have present : l.isMissing placed b = false := by
          simpa using List.find?_eq_none.1 none_missing b among
        cases marked : placed.has n with
        | true =>
          rcases derived.reached wf (.refl _ _) marked with old | reached
          · simp [Digraph.has_none] at old
          · have both := (FlowGraph.has_reachable_iff wf).2 reached
            exact absurd (marked.trans both.symm) differ
        | false =>
          have reached : l.Reached n := by
            refine (FlowGraph.has_reachable_iff wf).1 ?_
            cases other : (l.graph.toDigraph.reachable l.graph.entry fun _ => false).has n with
            | true => rfl
            | false => exact absurd (marked.trans other.symm) differ
          exact contents_of_not_isMissing wf found reached marked present
      rw [← Except.ok.inj built, Tree.contents_ofPieces, ← same]
      exact emitted

theorem FlowGraph.branch_mem {f : Function} {g : FlowGraph} (graph : ofFunction f = .ok g)
    {n : Nat} {b : Block} (found : g.block? n = some b) {c : Expr}
    (tests : b.exit.condition? = some c) :
    ∃ label, .branch c label ∈ f.code.instructions := by
  have left := (wellFormed_of_ofFunction graph).leaves found
  generalize last : b.entries.getLast?.map (·.2) = ending at left
  cases exit : b.exit with
  | returns | falls | jumps | dispatches => simp [exit, Exit.condition?] at tests
  | tests c' x y =>
    obtain rfl : c' = c := by simpa [exit, Exit.condition?] using tests
    rw [exit] at left
    cases left with
    | tests => exact ⟨_, last_mem graph found last⟩

/-- If no branch of the code is a short-circuit test itself, the tree of the code holds each
    statement, each condition and each switch of the blocks that control can come to once. -/
theorem Function.tree_conserves {f : Function} {g : FlowGraph} {t : Tree}
    (graph : FlowGraph.ofFunction f = .ok g)
    (plain : ∀ c label, .branch c label ∈ f.code.instructions → c.isShort = false)
    (built : f.tree = .ok t) :
    (Tree.flatten t).Perm (g.reached.flatMap Block.statements) ∧
      (Tree.conditions t).Perm (g.reached.filterMap fun b => b.exit.condition?) ∧
      (Tree.dispatched t).Perm (g.reached.filterMap fun b => b.exit.dispatched?) ∧
      ∀ i ∈ Tree.flatten t, i.isStatement = true := by
  have wf := FlowGraph.wellFormed_of_ofFunction graph
  have contents : (Tree.contents t).Perm (g.reached.flatMap Block.contents) :=
    Layout.contents_tree wf (tree_of_graph graph built)
  have statements : (Tree.flatten t).Perm (g.reached.flatMap Block.statements) := by
    have perm := contents.filterMap Event.statement?
    rw [List.filterMap_flatMap] at perm
    rw [← Tree.executed_contents]
    exact perm.trans (.of_eq (List.flatMap_congr fun b _ => b.executed_contents))
  refine ⟨statements, ?_, ?_, ?_⟩
  · have perm := contents.filterMap Event.condition?
    rw [List.filterMap_flatMap] at perm
    rw [List.filterMap_eq_flatMap_toList]
    refine perm.trans (.of_eq (List.flatMap_congr fun b among => ?_))
    obtain ⟨n, -, found⟩ := (FlowGraph.mem_reached wf).1 among
    apply Block.conditions_contents
    intro c tests
    obtain ⟨label, branch⟩ := FlowGraph.branch_mem graph found tests
    exact plain c label branch
  · have perm := contents.filterMap Event.dispatched?
    rw [List.filterMap_flatMap] at perm
    rw [List.filterMap_eq_flatMap_toList]
    exact perm.trans (.of_eq (List.flatMap_congr fun b _ => b.dispatched_contents))
  · intro i member
    obtain ⟨b, -, among⟩ := List.mem_flatMap.1 (statements.mem_iff.1 member)
    obtain ⟨e, inBody, rfl⟩ := List.mem_map.1 among
    exact (List.mem_filter.1 inBody).2

namespace Sample

def sharing : Function :=
  ⟨0, [], .ofList [.branch (probe 0) 1, .branch (probe 1) 1, probes 2, .ret [], .label 1, probes 3,
    .ret [], probes 4], []⟩

def sharingGraph : FlowGraph :=
  ⟨0, #[⟨0, [(0, .branch (probe 0) 1)], .tests (probe 0) 3 1⟩,
    ⟨1, [(1, .branch (probe 1) 1)], .tests (probe 1) 3 2⟩,
    ⟨2, [(2, probes 2), (3, .ret [])], .returns⟩,
    ⟨3, [(4, .label 1), (5, probes 3), (6, .ret [])], .returns⟩, ⟨4, [(7, probes 4)], .falls none⟩]⟩

def sharingTree : Tree :=
  [.choice [(⟨[], .op .shortOr [probe 0, probe 1] [] [] false, true⟩, [.seq [probes 2, .ret []]])]
    none, .seq [probes 3, .ret []]]

theorem sharing_conserves :
    (∀ c label, .branch c label ∈ sharing.code.instructions → c.isShort = false) ∧
    (Tree.flatten sharingTree).Perm (sharingGraph.reached.flatMap Block.statements) ∧
    (Tree.conditions sharingTree).Perm
      (sharingGraph.reached.filterMap fun b => b.exit.condition?) ∧
    Tree.flatten sharingTree = [probes 2, .ret [], probes 3, .ret []] := by
  have code : sharing.code.instructions = [.branch (probe 0) 1, .branch (probe 1) 1, probes 2,
    .ret [], .label 1, probes 3, .ret [], probes 4] := by cbv
  have plain : ∀ c label, .branch c label ∈ sharing.code.instructions → c.isShort = false := by
    intro c label member
    simp only [code, probes, List.mem_cons, Instruction.branch.injEq, reduceCtorEq,
      List.not_mem_nil, or_false] at member
    rcases member with ⟨rfl, -⟩ | ⟨rfl, -⟩ <;> rfl
  have graph : FlowGraph.ofFunction sharing = .ok sharingGraph := by cbv
  have conserved := Function.tree_conserves graph plain (t := sharingTree) (by cbv)
  exact ⟨plain, conserved.1, conserved.2.1, rfl⟩

end Sample

end ClientScript
