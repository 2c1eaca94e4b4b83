import ClientScript.Proofs.Structure.Matching

/-!
Blocks and their tree run in rounds. From a block and tasks that match it, both come to a block
and tasks that match again, or both end. One round is a block with all that is folded into its
test; there is one statement for each kind of plan.
-/
namespace ClientScript

theorem Test.leadsTo_eq (t : Test) (side answer : Bool) :
    t.leadsTo answer =
      if answer != (t.leadsTo side == t.fallthrough) then t.leadsTo side else t.leadsTo !side := by
  by_cases same : t.taken = t.fallthrough
  · cases side <;> cases answer <;> simp [Test.leadsTo, same]
  · cases side <;> cases answer <;> simp [Test.leadsTo, same]

namespace Tree

theorem chosen_zip (v : Int32) (default : Option Tree) (keys : List (List Int32)) :
    ∀ f : Nat → Tree,
      (∃ i values, keys[i]? = some values ∧ v ∈ values ∧
        chosen v (keys.zip ((List.range keys.length).map f)) default = f i) ∨
      (∀ values ∈ keys, v ∉ values) ∧
        chosen v (keys.zip ((List.range keys.length).map f)) default = default.getD [] := by
  induction keys with
  | nil => intro f; exact .inr ⟨by simp, by simp [chosen]⟩
  | cons values keys ih =>
    intro f
    simp only [chosen, List.length_cons, List.range_succ_eq_map, List.map_cons, List.map_map,
      List.zip_cons_cons, List.find?_cons]
    by_cases here : v ∈ values
    · exact .inl ⟨0, values, rfl, here, by simp [here]⟩
    · have absent : values.contains v = false := by simpa using here
      rw [absent]
      rcases ih (f ∘ Nat.succ) with ⟨i, later, at_i, member, same⟩ | ⟨none, same⟩
      · exact .inl ⟨i + 1, later, by simpa using at_i, member, same⟩
      · refine .inr ⟨?_, same⟩
        intro later member
        rcases List.mem_cons.1 member with rfl | behind
        · exact here
        · exact none later behind

end Tree

namespace Layout

variable {l : Layout}

theorem branched_attachAll {ps rest : List Piece} (h : Tree.Branched ps)
    (k : Tree.Branched rest) : Tree.Branched (Tree.attachAll ps rest) := by
  induction ps with
  | nil => exact k
  | cons p ps ih =>
    have later : Tree.Branched (Tree.attachAll ps rest) :=
      ih fun branches fallback member => h branches fallback (List.mem_cons_of_mem _ member)
    intro branches fallback member
    change _ ∈ Tree.attach p (Tree.attachAll ps rest) at member
    unfold Tree.attach at member
    split at member
    · rename_i is js tail eq
      rw [eq] at later
      rcases List.mem_cons.1 member with same | behind
      · simp at same
      · exact later branches fallback (List.mem_cons_of_mem _ behind)
    · rcases List.mem_cons.1 member with rfl | behind
      · exact h branches fallback List.mem_cons_self
      · exact later branches fallback behind

theorem branched_collapse {c : Condition} {t : Tree} {ps : List Piece} :
    Tree.Branched [Tree.collapse [(c, t)] ps] := by
  intro branches fallback member
  unfold Tree.collapse at member
  rintro rfl
  split at member <;> simp at member

theorem branched_sequence (is : List Instruction) : Tree.Branched (Tree.sequence is) := by
  intro branches fallback member
  cases is <;> simp [Tree.sequence] at member

theorem branched_append {ps qs : List Piece} (h : Tree.Branched ps) (k : Tree.Branched qs) :
    Tree.Branched (ps ++ qs) := by
  intro branches fallback member
  rcases List.mem_append.1 member with left | right
  · exact h branches fallback left
  · exact k branches fallback right

theorem branched_assemble (plan : Plan) (bodies : List (List Piece)) :
    Tree.Branched (plan.assemble bodies) := by
  cases plan with
  | straight => exact branched_sequence _
  | loop => intro branches fallback member; simp [Plan.assemble] at member
  | guarded =>
    refine branched_append (branched_sequence _) ?_
    intro branches fallback member
    simp only [List.mem_singleton, Piece.choice.injEq] at member
    simp [member.1]
  | forked => exact branched_append (branched_sequence _) branched_collapse
  | switched =>
    refine branched_append (branched_sequence _) ?_
    intro branches fallback member
    simp at member

theorem Built.branched {P : Plan → Prop} {placed placed' : Marks} {start : Nat} {scope : Scope}
    {ps : List Piece} (h : l.Built P placed start scope placed' ps) : Tree.Branched ps := by
  induction h with
  | ended => simp [Tree.Branched]
  | @block _ _ _ _ _ plan _ _ rest _ _ _ _ _ _ _ onward final _ ih_onward =>
    refine branched_attachAll (branched_assemble _ _) ?_
    cases follow : plan.follow? with
    | none => rw [(final follow).2]; simp [Tree.Branched]
    | some m => exact ih_onward m follow

def Related (l : Layout) (n : Nat) (k : List Task) : Prop :=
  l.graph.toDigraph.Reaches l.graph.entry n ∧ l.Matches (l.graph.forward n) k

section

variable {placed placed' : Marks} {n : Nat} {b : Block} {scope : Scope} {plan : Plan}
  {marks : Nat → Marks} {body : Nat → List Piece} {rest : List Piece} {k : List Task}
  (wf : l.graph.WellFormed) (plain : l.graph.Plain n)
  (reached : l.graph.toDigraph.Reaches l.graph.entry n)
  (context : l.Context scope placed placed') (next : l.Continues scope placed placed' n k)
  (o : Oracle) (met : Nat)

include wf reached in
theorem round_on {a c : Nat} {es fs : List Event} {s : Nat} {k' : List Task}
    (run : (Machine.ofBlocks l.graph).run o (a + 1) met n = (es, some s))
    (tree : Machine.ofTree.run o (c + 1) met k = (fs, some k')) (same : shown es = shown fs)
    (matched : l.Matches (l.graph.forward s) k') :
    Machine.Round (.ofBlocks l.graph) .ofTree l.Related o met n k :=
  ⟨a, c, es, fs, _, _, run, tree, same,
    .some ⟨reached.trans (FlowGraph.reaches_of_run wf run), matched⟩, by simp⟩

include wf in
theorem Stands.no_return {t : Test} {before after : Marks} (found : l.graph.block? n = some b)
    (stands : l.Stands scope n b before after t) :
    ∀ i ∈ b.statements ++ t.prelude, i.isReturn = false := by
  obtain ⟨c, x, y, exit⟩ := stands.branches
  intro i member
  rcases List.mem_append.1 member with own | folded
  · exact wf.no_return found (by simp [exit]) i own
  · exact Instruction.isReturn_of_isCopy (stands.copies i folded)

theorem Stands.shown_prelude {t : Test} {before after : Marks} {es : List Event}
    (stands : l.Stands scope n b before after t) :
    shown ((b.statements ++ t.prelude).map .executes ++ es) =
      shown (b.statements.map .executes ++ es) := by
  simp [shown_copies stands.copies]

include wf plain reached context next in
theorem Stage.round_straight {follow : Option Nat}
    (stage : l.Stage l.Settled placed n b scope (.straight b.statements follow) marks body placed'
      rest)
    (exit : b.exit = .returns ∧ follow = none ∨ b.exit = .falls follow ∨
      ∃ m, b.exit = .jumps m ∧ follow = some m) :
    Machine.Round (.ofBlocks l.graph) .ofTree l.Related o met n
      (Tree.load (Tree.attachAll (Tree.sequence b.statements) rest) ++ k) := by
  have run := FlowGraph.run_block o met stage.found
  rw [Tree.load_attachAll, Tree.load_sequence, List.append_assoc]
  have goes_on : ∀ m, follow = some m → b.exit = .jumps m ∨ b.exit = .falls (some m) →
      Machine.Round (.ofBlocks l.graph) .ofTree l.Related o met n
        (b.statements.map .execute ++ (Tree.load rest ++ k)) := by
    rintro m rfl exit
    have edge : m ∈ b.exit.successors := by
      rcases exit with exit | exit <;> simp [exit, Exit.successors, Exit.edges]
    have quiet : b.exit.asks o met = [] ∧ b.exit.leadsTo o met = some m ∧ b.exit ≠ .returns := by
      rcases exit with exit | exit <;> simp [exit, Exit.asks, Exit.leadsTo]
    obtain ⟨i, is, statements⟩ := List.exists_cons_of_ne_nil
      (FlowGraph.statements_ne_nil wf stage.found plain exit)
    have tree := Tree.run_statements o (Tree.load rest ++ k) b.statements met
      (wf.no_return stage.found quiet.2.2)
    rw [quiet.1, quiet.2.1, List.append_nil] at run
    have length : b.statements.length = is.length + 1 := by rw [statements]; rfl
    rw [length] at tree
    refine round_on wf reached o met (a := 0) run tree rfl ?_
    refine stage.matches_onward wf context next rfl (.step ?_ stage.found edge (.here _))
    exact stage.adds_first wf (.inl rfl)
  -- A return ends both runs, and so does the end of the code, where no task is left.
  rcases exit with ⟨exit, rfl⟩ | exit | ⟨m, exit, rfl⟩
  · obtain ⟨init, values, statements, early⟩ := wf.returns_last stage.found exit
    have tree := Tree.run_statements_then o met early
      (k := .execute (.ret values) :: (Tree.load rest ++ k)) rfl
    rw [exit, statements] at run
    have alike : (init ++ [Instruction.ret values]).map Event.executes ++ Exit.returns.asks o met =
        init.map .executes ++ [.executes (.ret values)] := by simp [Exit.asks]
    rw [statements, List.map_append, List.append_assoc]
    exact ⟨0, _, _, _, none, none, run, tree, congrArg shown alike, .none, fun _ => alike⟩
  · cases follow with
    | some m => exact goes_on m rfl (.inr exit)
    | none =>
      have here : l.graph.Through (placed.Adds placed') n n := .here n
      rw [next.off n b here stage.inside stage.found exit, (stage.final rfl).2, Tree.load_nil]
      have tree := Tree.run_statements_then o met
        (wf.no_return stage.found (by simp [exit])) (k := []) rfl
      rw [exit] at run
      exact ⟨0, _, _, _, none, none, run, tree, rfl, .none, fun _ => rfl⟩
  · exact goes_on m rfl (.inl exit)

include wf reached context next in
theorem Stage.round_loop (plain : l.graph.Plain n) {t : Test} {answer : Bool} {c : Condition}
    (prelude : c.prelude = b.statements ++ t.prelude) (test : c.test = t.expression)
    (negated : c.negated = !answer)
    (stage : l.Stage l.Settled placed n b scope (.loop c n (t.leadsTo answer) (t.leadsTo !answer))
      marks body placed' rest)
    (stands : l.Stands .free n b (placed.mark n) (marks 0) t)
    (self : l.Matches n
      (Tree.load (Tree.attachAll [.loop c (Tree.ofPieces (body 0))] rest) ++ k)) :
    Machine.Round (.ofBlocks l.graph) .ofTree l.Related o met n
      (Tree.load (Tree.attachAll [.loop c (Tree.ofPieces (body 0))] rest) ++ k) := by
  obtain ⟨a, es, s, run, same, at_s⟩ := stands.shows o met
  rw [Tree.load_attachAll, List.append_assoc] at self ⊢
  have inner := stage.matches_body wf context reached plain rfl self
  have outer := stage.matches_onward wf context next rfl
    (by
      rw [works_eq (stands.works _) (stage.plain_follow wf context rfl)]
      exact (stands.leads _).mono fun x first => stage.adds_first wf first)
  rw [works_eq (stands.works _) (stage.plain_follow wf context rfl)] at outer
  have early : ∀ i ∈ c.prelude, i.isReturn = false := by
    rw [prelude]
    exact stands.no_return wf stage.found
  have tree := Tree.run_statements_then o met early
    (k := .iterate c (Tree.ofPieces (body 0)) :: (Tree.load rest ++ k)) rfl
  rw [test, negated, prelude] at tree
  rw [Tree.load_loop, prelude, List.append_assoc, List.singleton_append]
  refine round_on wf reached o met run tree ?_ ?_
  · rw [stands.shown_prelude, same]
  · rw [at_s]
    by_cases enters : (o.evaluate met t.expression).1 = answer
    · rw [enters, if_pos (by simp), Tree.load_ofPieces, List.append_assoc]
      exact inner
    · have leaves : (o.evaluate met t.expression).1 = !answer := by
        cases answer <;> simpa using enters
      rw [leaves, if_neg (by simp)]
      exact outer

include wf reached in
theorem Stands.round_choice {t : Test} {before after : Marks} {side : Bool}
    {first second : List Piece} {others : List (Condition × Tree)} {fallback : Option Tree}
    (found : l.graph.block? n = some b) (stands : l.Stands scope n b before after t)
    (rest : Tree.loadBranches others fallback = Tree.load second)
    (in_first : l.Matches (t.leadsTo side) (Tree.load first ++ k))
    (in_second : l.Matches (t.leadsTo !side) (Tree.load second ++ k)) :
    Machine.Round (.ofBlocks l.graph) .ofTree l.Related o met n
      ((b.statements ++ t.prelude).map .execute ++
        (.enter t.expression (t.leadsTo side == t.fallthrough) (Tree.ofPieces first) others
          fallback :: k)) := by
  obtain ⟨a, es, s, run, same, at_s⟩ := stands.shows o met
  have tree := Tree.run_statements_then o met
    (k := .enter t.expression (t.leadsTo side == t.fallthrough) (Tree.ofPieces first) others
      fallback :: k) (stands.no_return wf found) rfl
  refine round_on wf reached o met run tree ?_ ?_
  · rw [stands.shown_prelude, same]
  · rw [at_s, t.leadsTo_eq side, Tree.load_ofPieces, rest]
    split
    · exact in_first
    · exact in_second

include wf reached context next in
theorem Stage.round_guarded {t : Test} {side : Bool}
    (stage : l.Stage l.Settled placed n b scope
      (.guarded (b.statements ++ t.prelude) t.expression (t.leadsTo side == t.fallthrough)
        (t.leadsTo side) (scope.upTo (some (t.leadsTo !side))) (t.leadsTo !side))
      marks body placed' rest)
    (stands : l.Stands scope n b (placed.mark n) (marks 0) t) :
    Machine.Round (.ofBlocks l.graph) .ofTree l.Related o met n
      (Tree.load (Tree.attachAll (Tree.sequence (b.statements ++ t.prelude) ++
        [.choice [(⟨[], t.expression, t.leadsTo side == t.fallthrough⟩,
          Tree.ofPieces (body 0))] none]) rest) ++ k) := by
  have same := works_eq (stands.works (!side)) (stage.plain_follow wf context rfl)
  have in_arm := stage.matches_arm wf context next reached (i := 0) rfl rfl (by simp)
  have behind := stage.matches_onward wf context next rfl (by
    rw [same]
    exact (stands.leads _).mono fun x first => stage.adds_first wf first)
  rw [same] at behind
  rw [← List.nil_append (Tree.load rest ++ k), ← Tree.load_nil] at behind
  have round := stands.round_choice wf reached o met stage.found
    (Tree.loadBranches_nil.trans Tree.load_nil.symm) in_arm behind
  rw [Tree.load_attachAll, Tree.load_append, Tree.load_sequence, Tree.load_choice]
  simpa using round

include wf reached context next in
theorem Stage.round_forked {t : Test} {side : Bool}
    (stage : l.Stage l.Settled placed n b scope
      (.forked (b.statements ++ t.prelude) t.expression (t.leadsTo side == t.fallthrough)
        (t.leadsTo side) (t.leadsTo !side) (scope.upTo ((l.mergePoint? n).or scope.stop))
        (l.mergePoint? n)) marks body placed' rest)
    (stands : l.Stands scope n b (placed.mark n) (marks 0) t) :
    Machine.Round (.ofBlocks l.graph) .ofTree l.Related o met n
      (Tree.load (Tree.attachAll (Tree.sequence (b.statements ++ t.prelude) ++
        [Tree.collapse [(⟨[], t.expression, t.leadsTo side == t.fallthrough⟩,
          Tree.ofPieces (body 0))] (body 1)]) rest) ++ k) := by
  have in_first := stage.matches_arm wf context next reached (i := 0) rfl rfl (by simp)
  have in_second := stage.matches_arm wf context next reached (i := 1) rfl rfl (by simp)
  obtain ⟨others, fallback, eq, loaded⟩ := Tree.load_collapse (stage.arms 1 _ _ rfl).branched
    ⟨[], t.expression, t.leadsTo side == t.fallthrough⟩ (Tree.ofPieces (body 0))
  have round := stands.round_choice wf reached o met stage.found eq in_first in_second
  rw [Tree.load_attachAll, Tree.load_append, Tree.load_sequence, loaded]
  simpa using round

omit k in
theorem load_chosen (arm : Nat → List Piece) {cases : List (Int32 × Nat)} {default : Nat}
    (ascending : cases.Pairwise fun a b => a.1 < b.1)
    (inside : ∀ v s, (v, s) ∈ cases → l.graph.forward s < l.graph.size) (v : Int32) :
    ∃ i, ((l.groupCases cases).map Prod.snd ++ [l.graph.forward default])[i]? =
        some (l.graph.forward ((IntMap.find v cases).getD default)) ∧
      Tree.load (Tree.chosen v
        (((l.groupCases cases).map Prod.fst).zip
          ((List.range (l.groupCases cases).length).map fun i => Tree.ofPieces (arm i)))
        (match arm (l.groupCases cases).length with
          | [] => none
          | ps => some ps)) = Tree.load (arm i) := by
  have chosen := Tree.chosen_zip v
    (match arm (l.groupCases cases).length with
      | [] => none
      | ps => some ps)
    ((l.groupCases cases).map Prod.fst) (fun i => Tree.ofPieces (arm i))
  rw [List.length_map] at chosen
  -- All values of a group have the target of the group, and a value in no group has no case.
  rcases chosen with ⟨i, values, at_i, member, same⟩ | ⟨absent, same⟩
  · rw [List.getElem?_map, Option.map_eq_some_iff] at at_i
    obtain ⟨⟨values, n⟩, group, rfl⟩ := at_i
    have within := (List.getElem?_eq_some_iff.1 group).1
    obtain ⟨all, -⟩ := mem_groupCases (List.mem_of_getElem? group)
    rw [all] at member
    obtain ⟨⟨v', s⟩, case, rfl⟩ := List.mem_map.1 member
    obtain ⟨among, target⟩ := List.mem_filter.1 case
    refine ⟨i, ?_, by rw [same, Tree.load_ofPieces]⟩
    rw [IntMap.find_of_mem ascending among, List.getElem?_append_left (by simpa using within),
      List.getElem?_map, group]
    exact congrArg some (beq_iff_eq.1 target).symm
  · have missed : IntMap.find v cases = none := by
      cases found : IntMap.find v cases with
      | none => rfl
      | some s =>
        have among := IntMap.mem_of_find found
        obtain ⟨values, group, member⟩ := groupCases_of_mem among (inside v s among)
        exact absurd member (absent values (List.mem_map.2 ⟨_, group, rfl⟩))
    refine ⟨(l.groupCases cases).length, ?_, ?_⟩
    · rw [missed, List.getElem?_append_right (by simp)]
      simp
    · rw [same]
      cases arm (l.groupCases cases).length <;> rfl

include wf reached context next in
theorem Stage.matches_target {e : Expr} {cases : List (Int32 × Nat)} {default i target : Nat}
    {follow : Option Nat}
    (stage : l.Stage l.Settled placed n b scope
      (.switched b.statements e (l.groupCases cases) (l.graph.forward default)
        (scope.upTo (follow.or scope.stop)) follow) marks body placed' rest)
    (edge : target ∈ b.exit.successors)
    (at_i : ((l.groupCases cases).map Prod.snd ++ [l.graph.forward default])[i]? =
      some (l.graph.forward target)) :
    l.Matches (l.graph.forward target) (Tree.load (body i) ++ (Tree.load rest ++ k)) := by
  have arm : (Plan.switched b.statements e (l.groupCases cases) (l.graph.forward default)
      (scope.upTo (follow.or scope.stop)) follow).arms[i]? =
        some (if follow = some (l.graph.forward target) then none
          else some (l.graph.forward target, scope.upTo (follow.or scope.stop))) := by
    rw [Plan.arms, List.getElem?_map, at_i]
    rfl
  by_cases here : follow = some (l.graph.forward target)
  · rw [if_pos here] at arm
    rw [(stage.skipped i arm).2, Tree.load_nil, List.nil_append]
    have same := works_eq ⟨target, rfl⟩ (stage.plain_follow wf context here)
    have behind := stage.matches_onward wf context next here (by
      rw [same]
      exact .step (stage.adds_first wf (.inl rfl)) stage.found edge (.here _))
    rwa [same] at behind
  · rw [if_neg here] at arm
    exact stage.matches_arm wf context next reached arm rfl (by simp)

include wf reached context next in
theorem Stage.round_switched {e : Expr} {cases : List (Int32 × Nat)} {default : Nat}
    {follow : Option Nat} {bodies : List (List Int32 × Tree)} {otherwise : Option Tree}
    (exit : b.exit = .dispatches e cases default)
    (stage : l.Stage l.Settled placed n b scope
      (.switched b.statements e (l.groupCases cases) (l.graph.forward default)
        (scope.upTo (follow.or scope.stop)) follow) marks body placed' rest)
    (chooses : ∀ v, ∃ i, ((l.groupCases cases).map Prod.snd ++ [l.graph.forward default])[i]? =
        some (l.graph.forward ((IntMap.find v cases).getD default)) ∧
      Tree.load (Tree.chosen v bodies otherwise) = Tree.load (body i)) :
    Machine.Round (.ofBlocks l.graph) .ofTree l.Related o met n
      (Tree.load (Tree.attachAll (Tree.sequence b.statements ++ [.switch e bodies otherwise]) rest)
        ++ k) := by
  obtain ⟨i, at_i, loaded⟩ := chooses (o.value met)
  have run := FlowGraph.run_block o met stage.found
  have edge : (IntMap.find (o.value met) cases).getD default ∈ b.exit.successors :=
    FlowGraph.leadsTo_successors o met (by rw [exit]; rfl)
  have matched := stage.matches_target wf reached context next edge at_i
  have tree := Tree.run_statements_then o met
    (wf.no_return stage.found (by simp [exit]))
    (k := .select e bodies otherwise :: (Tree.load rest ++ k)) rfl
  rw [exit] at run
  rw [← loaded] at matched
  rw [Tree.load_attachAll, Tree.load_append, Tree.load_sequence, Tree.load_switch,
    List.append_assoc, List.append_assoc]
  exact round_on wf reached o met (a := 0) run tree rfl matched

include wf reached context next in
/-- There is a round from a block and the tasks of its region. -/
theorem Stage.round (plain : l.graph.Plain n)
    (stage : l.Stage l.Settled placed n b scope plan marks body placed' rest)
    (self : l.Matches n (Tree.load (Tree.attachAll
      (plan.assemble ((List.range plan.arms.length).map body)) rest) ++ k)) :
    Machine.Round (.ofBlocks l.graph) .ofTree l.Related o met n (Tree.load (Tree.attachAll
      (plan.assemble ((List.range plan.arms.length).map body)) rest) ++ k) := by
  have made := stage.planned
  generalize first_eq : marks 0 = first at made
  cases made with
  | straight exit =>
    exact stage.round_straight wf plain reached context next o met exit
  | loop answer stands =>
    subst first_eq
    exact stage.round_loop wf reached context next o met plain rfl rfl rfl stands self
  | guarded side stands =>
    subst first_eq
    exact stage.round_guarded wf reached context next o met stands
  | forked side stands =>
    subst first_eq
    exact stage.round_forked wf reached context next o met stands
  | @switched e cases default follow exit works =>
    have ascending := wf.ascending stage.found exit
    have inside : ∀ v s, (v, s) ∈ cases → l.graph.forward s < l.graph.size := by
      intro v s member
      have edge : s ∈ b.exit.successors := by
        rw [exit]
        exact FlowGraph.leadsTo_successors ⟨fun _ => true, fun _ => v⟩ 0
          (by simp [Exit.leadsTo, IntMap.find_of_mem ascending member])
      exact FlowGraph.forward_inside wf (wf.successors_inside stage.found edge)
    have round := stage.round_switched wf reached context next o met exit
      (load_chosen body ascending inside)
    have count : (Plan.switched b.statements e (l.groupCases cases) (l.graph.forward default)
        (scope.upTo (follow.or scope.stop)) follow).arms.length =
          (l.groupCases cases).length + 1 := by simp [Plan.arms]
    rw [count, List.range_succ, List.map_append, Plan.assemble, List.map_singleton,
      List.dropLast_concat, List.getLastD_concat, List.map_map]
    exact round

end

section

variable (wf : l.graph.WellFormed)

include wf

theorem Matches.round {n : Nat} {k : List Task} (h : l.Matches n k)
    (reached : l.graph.toDigraph.Reaches l.graph.entry n) (o : Oracle) (met : Nat) :
    Machine.Round (.ofBlocks l.graph) .ofTree l.Related o met n k := by
  induction h with
  | @intro placed placed' start scope ps k built context ends off ih =>
    rcases built.cases_stage wf with ⟨at_end, -, rfl⟩ | ⟨b, plan, marks, body, rest, stage, eq⟩
    · rw [Tree.load_nil, List.nil_append]
      exact ih _ at_end (.here _) reached
    · subst eq
      exact stage.round wf reached context ⟨ends, off⟩ o met
        (built.plain wf context.plain) (.intro built context ends off)

theorem rounds_tree : Machine.Rounds (.ofBlocks l.graph) .ofTree l.Related := by
  rintro o met n k ⟨reached, matched⟩
  obtain ⟨c, hops⟩ := FlowGraph.run_forward (g := l.graph) o met n
  have onward := reached.trans (FlowGraph.reaches_of_run wf hops)
  obtain ⟨a, d, es, fs, r, r', run, tree, shown, ends, alike⟩ :=
    matched.round wf onward o met
  have both := Machine.run_trans hops (by simpa using run)
  exact ⟨c + a, d, es, fs, r, r', both, tree, shown, ends, alike⟩

omit wf in
theorem related_tree {t : Tree} (settled : ∀ plan ∈ l.plans, l.Settled plan)
    (built : l.tree = .ok t) : l.Related l.graph.entry (Tree.load t) := by
  simp only [tree, bind, Except.bind] at built
  split at built
  · simp at built
  · rename_i made region
    obtain ⟨placed, pieces⟩ := made
    simp only at built
    split at built
    · simp at built
    · rw [← Except.ok.inj built, Tree.load_ofPieces]
      refine ⟨.refl _ _, ?_⟩
      have none_ends : ∀ e, Scope.free.endsAt e = false := fun e => rfl
      have plans : ∀ v ∈ l.visits, ∀ plan, l.planAt? v = some plan → l.Settled plan :=
        fun v visited plan planned => settled plan (List.mem_filterMap.2 ⟨v, visited, planned⟩)
      have matched := Matches.intro (k := []) (built_of_region region plans) (context_free _ _)
        (fun e at_end => by simp [none_ends] at at_end) (fun _ _ _ _ _ _ => rfl)
      rwa [List.append_nil] at matched

theorem tree_agrees {t : Tree} (settled : ∀ plan ∈ l.plans, l.Settled plan)
    (built : l.tree = .ok t) :
    Machine.Agree (.ofBlocks l.graph) l.graph.entry .ofTree (Tree.load t) :=
  (rounds_tree wf).agree (related_tree settled built)

end

end Layout

end ClientScript
