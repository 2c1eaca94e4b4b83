import ClientScript.Proofs.Flow.Blocks
import ClientScript.Proofs.Run.Machine

/-!
Code and blocks run alike. The state of code is what of it is still ahead; the state of a block
graph is the block that comes next. A jump goes behind the last label of its name. Main statement:
the code of a function agrees with its block graph.
-/
namespace ClientScript

def behind (l : Label) : List Instruction → Option (List Instruction)
  | [] => none
  | i :: rest => (behind l rest).or (if i.anchor? = some l then some rest else none)

def Machine.ofCode (code : List Instruction) : Machine (List Instruction) where
  step o met
    | [] => ([], none)
    | .label _ :: rest => ([], some rest)
    | .assign definitions e :: rest => ([.executes (.assign definitions e)], some rest)
    | .ret values :: _ => ([.executes (.ret values)], none)
    | .goto l :: _ => ([], behind l code)
    | .branch c l :: rest =>
      let answer := o.evaluate met c
      (answer.2, if answer.1 then behind l code else some rest)
    | .switch e cases :: rest =>
      ([.dispatches e],
        match cases.get? (o.value met) with
        | some l => behind l code
        | none => some rest)

def Exit.asks (o : Oracle) (met : Nat) : Exit → List Event
  | .tests c _ _ => (o.evaluate met c).2
  | .dispatches e _ _ => [.dispatches e]
  | .returns | .falls _ | .jumps _ => []

def Exit.leadsTo (o : Oracle) (met : Nat) : Exit → Option Nat
  | .returns => none
  | .falls next => next
  | .jumps target => some target
  | .tests c taken fallthrough => some (if (o.evaluate met c).1 then taken else fallthrough)
  | .dispatches _ cases default => some ((IntMap.find (o.value met) cases).getD default)

def Machine.ofBlocks (g : FlowGraph) : Machine Nat where
  step o met n :=
    match g.block? n with
    | none => ([], none)
    | some b => (b.statements.map .executes ++ b.exit.asks o met, b.exit.leadsTo o met)

theorem Instruction.anchor?_of_isTerminal {i : Instruction} (terminal : i.isTerminal = true) :
    i.anchor? = none := by
  cases i <;> simp_all [isTerminal, anchor?]

theorem behind_append (l : Label) (xs ys : List Instruction) :
    behind l (xs ++ ys) = (behind l ys).or ((behind l xs).map (· ++ ys)) := by
  induction xs with
  | nil => simp [behind]
  | cons x xs ih =>
    rw [List.cons_append, behind, behind, ih]
    cases behind l ys with
    | some rest => rfl
    | none =>
      cases behind l xs with
      | some rest => rfl
      | none => simp only [Option.map_none, Option.none_or]; split <;> rfl

theorem no_return_shown {code : List Instruction} {o : Oracle} {n met : Nat}
    {ahead ahead' : List Instruction} {es : List Event}
    (run : (Machine.ofCode code).run o n met ahead = (es, some ahead')) (values : List Expr) :
    .executes (.ret values) ∉ es := by
  induction n generalizing met ahead es with
  | zero =>
    simp only [Machine.run, Prod.mk.injEq] at run
    simp [← run.1]
  | succ n ih =>
    simp only [Machine.run] at run
    split at run
    · simp at run
    · rename_i es₁ t stepped
      simp only [Prod.mk.injEq] at run
      rw [← run.1]
      have later := ih (Prod.ext rfl run.2)
      have first : .executes (.ret values) ∉ es₁ := by
        simp only [Machine.ofCode] at stepped
        split at stepped <;> simp only [Prod.mk.injEq, reduceCtorEq, and_false] at stepped
        case h_6 c _ _ =>
          rw [← stepped.1]
          exact o.evaluate_executes_none met c _
        all_goals simp [← stepped.1]
      simp [first, later]

namespace FlowGraph

def holdsLabel (l : Label) (run : List (Nat × Instruction)) : Bool :=
  run.any fun e => e.2.anchor? == some l

theorem blockOfLabel_cons (run : List (Nat × Instruction)) (runs : List (List (Nat × Instruction)))
    (l : Label) : blockOfLabel (run :: runs) l =
      ((blockOfLabel runs l).map (· + 1)).or (if holdsLabel l run then some 0 else none) := by
  have first : (([0] : List Nat).find? fun i =>
      (((run :: runs)[i]?.getD []).any fun e => e.2.anchor? == some l)) =
        if holdsLabel l run then some 0 else none := by
    simp only [List.find?_cons, List.getElem?_cons_zero, Option.getD_some, List.find?_nil]
    change (match holdsLabel l run with | true => some 0 | false => none) = _
    cases holdsLabel l run <;> rfl
  rw [blockOfLabel, List.length_cons, List.range_succ_eq_map, List.reverse_cons,
    List.find?_append, first, ← List.map_reverse, List.find?_map]
  rfl

def codeFrom (g : FlowGraph) (n : Nat) : List Instruction :=
  ((g.blocks.toList.drop n).flatMap Block.entries).map (·.2)

theorem codeFrom_eq {g : FlowGraph} {n : Nat} {b : Block} (found : g.block? n = some b) :
    g.codeFrom n = b.entries.map (·.2) ++ g.codeFrom (n + 1) := by
  have at_list : g.blocks.toList[n]? = some b := by simpa [block?] using found
  obtain ⟨inside, rfl⟩ := List.getElem?_eq_some_iff.1 at_list
  rw [codeFrom, codeFrom, List.drop_eq_getElem_cons inside]
  simp

theorem codeFrom_end {g : FlowGraph} {n : Nat} (past : g.size ≤ n) : g.codeFrom n = [] := by
  rw [codeFrom, List.drop_eq_nil_of_le (by simpa [size] using past)]
  rfl

/-- The code ahead is that of a block and what follows it, up to labels in front. -/
def Ahead (g : FlowGraph) (ahead : List Instruction) (n : Nat) : Prop :=
  ∃ b ls xs, g.block? n = some b ∧ b.entries = ls ++ xs ∧ (∀ e ∈ ls, e.2.anchor?.isSome) ∧
    ahead = xs.map (·.2) ++ g.codeFrom (n + 1)

theorem ahead_start {g : FlowGraph} {n : Nat} (inside : n < g.size) :
    g.Ahead (g.codeFrom n) n := by
  obtain ⟨b, found⟩ : ∃ b, g.block? n = some b := ⟨_, Array.getElem?_eq_getElem inside⟩
  exact ⟨b, [], _, found, rfl, by simp, codeFrom_eq found⟩

theorem holdsLabel_cons (l : Label) (e : Nat × Instruction) (es : List (Nat × Instruction)) :
    holdsLabel l (e :: es) = (e.2.anchor? == some l || holdsLabel l es) := rfl

theorem holdsLabel_append (l : Label) (xs ys : List (Nat × Instruction)) :
    holdsLabel l (xs ++ ys) = (holdsLabel l xs || holdsLabel l ys) := List.any_append

theorem behind_eq_none {l : Label} {es : List (Nat × Instruction)}
    (absent : holdsLabel l es = false) : behind l (es.map (·.2)) = none := by
  induction es with
  | nil => rfl
  | cons e es ih =>
    simp only [holdsLabel_cons, Bool.or_eq_false_iff, beq_eq_false_iff_ne, ne_eq] at absent
    rw [List.map_cons, behind, ih absent.2]
    simp [absent.1]

theorem holdsLabel_flatten {l : Label} {runs : List (List (Nat × Instruction))}
    (absent : blockOfLabel runs l = none) : holdsLabel l runs.flatten = false := by
  induction runs with
  | nil => rfl
  | cons run runs ih =>
    rw [blockOfLabel_cons] at absent
    cases later : blockOfLabel runs l with
    | some m => simp [later] at absent
    | none =>
      simp only [later, Option.map_none, Option.none_or, ite_eq_right_iff, reduceCtorEq, imp_false,
        Bool.not_eq_true] at absent
      rw [List.flatten_cons, holdsLabel_append, absent, ih later]
      rfl

theorem behind_in_run {run : List (Nat × Instruction)} (h : Block.Shaped run) {l : Label}
    (here : holdsLabel l run = true) : ∃ ls xs, run = ls ++ xs ∧
      (∀ e ∈ ls, e.2.anchor?.isSome) ∧ behind l (run.map (·.2)) = some (xs.map (·.2)) := by
  obtain ⟨⟨ls, xs, rfl, labels, code⟩, -⟩ := h
  have outside : holdsLabel l xs = false := by
    simp only [holdsLabel, List.any_eq_false, beq_iff_eq]
    intro e member
    simp [code e member]
  rw [holdsLabel_append, outside, Bool.or_false] at here
  induction ls with
  | nil => simp [holdsLabel] at here
  | cons e ls ih =>
    cases later : holdsLabel l ls with
    | true =>
      obtain ⟨ls', xs', eq, labels', found⟩ :=
        ih later fun e member => labels e (by simp [member])
      refine ⟨e :: ls', xs', by simp [eq], ?_, ?_⟩
      · intro e' member
        rcases List.mem_cons.1 member with rfl | member
        · exact labels _ (by simp)
        · exact labels' e' member
      · rw [List.cons_append, List.map_cons, behind, found]
        rfl
    | false =>
      refine ⟨[e], ls ++ xs, rfl, fun e' member => labels e' (by simp_all), ?_⟩
      have named : e.2.anchor? = some l := by simpa [holdsLabel_cons, later] using here
      rw [List.cons_append, List.map_cons, behind,
        behind_eq_none (by rw [holdsLabel_append, later, outside]; rfl)]
      simp [named]

theorem behind_in_runs {l : Label} {n : Nat} {runs : List (List (Nat × Instruction))}
    (shaped : ∀ run ∈ runs, Block.Shaped run) (found : blockOfLabel runs l = some n) :
    ∃ run ls xs, runs[n]? = some run ∧ run = ls ++ xs ∧ (∀ e ∈ ls, e.2.anchor?.isSome) ∧
      behind l (runs.flatten.map (·.2)) =
        some (xs.map (·.2) ++ (runs.drop (n + 1)).flatten.map (·.2)) := by
  induction runs generalizing n with
  | nil => simp [blockOfLabel] at found
  | cons run runs ih =>
    rw [List.flatten_cons, List.map_append, behind_append]
    rw [blockOfLabel_cons] at found
    cases later : blockOfLabel runs l with
    | some m =>
      simp only [later, Option.map_some, Option.some_or, Option.some.injEq] at found
      subst found
      obtain ⟨run', ls, xs, at_m, eq, labels, jump⟩ :=
        ih (fun r member => shaped r (by simp [member])) later
      exact ⟨run', ls, xs, by simpa using at_m, eq, labels, by rw [jump]; rfl⟩
    | none =>
      simp only [later, Option.map_none, Option.none_or] at found
      split at found
      · rename_i here
        obtain rfl : 0 = n := Option.some.inj found
        obtain ⟨ls, xs, eq, labels, jump⟩ := behind_in_run (shaped run (by simp)) here
        refine ⟨run, ls, xs, rfl, eq, labels, ?_⟩
        rw [jump, behind_eq_none (holdsLabel_flatten later)]
        rfl
      · simp at found

variable {g : FlowGraph}

theorem ahead_jump (wf : g.WellFormed) {l : Label} {n : Nat} (found : g.labelled? l = some n) :
    ∃ ahead, behind l (g.codeFrom 0) = some ahead ∧ g.Ahead ahead n := by
  have shaped : ∀ run ∈ g.blocks.toList.map Block.entries, Block.Shaped run := by
    intro run member
    obtain ⟨b, among, rfl⟩ := List.mem_map.1 member
    obtain ⟨i, at_i⟩ := List.mem_iff_getElem?.1 among
    exact wf.shaped (n := i) (by simpa [block?] using at_i)
  obtain ⟨run, ls, xs, at_n, eq, labels, jump⟩ := behind_in_runs shaped found
  rw [List.getElem?_map, Option.map_eq_some_iff] at at_n
  obtain ⟨b, at_n, rfl⟩ := at_n
  refine ⟨_, jump, b, ls, xs, by simpa [block?] using at_n, eq, labels, ?_⟩
  rw [codeFrom, ← List.map_drop]
  rfl

theorem ahead_following {n m : Nat} (next : following g.size n = some m) :
    g.Ahead (g.codeFrom (n + 1)) m := by
  unfold following at next
  split at next
  · rename_i inside
    rw [← Option.some.inj next]
    exact ahead_start inside
  · simp at next

theorem run_plain (code : List Instruction) (o : Oracle) (met : Nat) (rest : List Instruction) :
    ∀ is : List Instruction, (∀ i ∈ is, i.isTerminal = false) →
      (Machine.ofCode code).run o is.length met (is ++ rest) =
        ((is.filter Instruction.isStatement).map .executes, some rest) := by
  intro is
  induction is generalizing met with
  | nil => intro _; rfl
  | cons i is ih =>
    intro plain
    have later : ∀ i ∈ is, i.isTerminal = false := fun i member => plain i (by simp [member])
    cases i with
    | assign definitions e =>
      have first : (Machine.ofCode code).run o 1 met (.assign definitions e :: (is ++ rest)) =
          ([.executes (.assign definitions e)], some (is ++ rest)) := Machine.run_one rfl
      have both := Machine.run_trans first (ih _ later)
      rwa [Nat.add_comm] at both
    | label l =>
      have first : (Machine.ofCode code).run o 1 met (.label l :: (is ++ rest)) =
          ([], some (is ++ rest)) := Machine.run_one rfl
      have both := Machine.run_trans first (ih _ later)
      rwa [Nat.add_comm] at both
    | branch | goto | switch | ret => simp [Instruction.isTerminal] at plain

theorem code_before {b : Block} {ls xs : List (Nat × Instruction)} (shaped : Block.Shaped b.entries)
    (eq : b.entries = ls ++ xs) (labels : ∀ e ∈ ls, e.2.anchor?.isSome) {e : Nat × Instruction}
    (last : b.entries.getLast? = some e) (code : e.2.anchor? = none) :
    ∃ init, xs = init ++ [e] ∧ b.entries = (ls ++ init) ++ [e] ∧
      ∀ i ∈ (ls ++ init).map (·.2), i.isTerminal = false := by
  rcases List.eq_nil_or_concat xs with rfl | ⟨init, e', rfl⟩
  · rw [eq, List.append_nil] at last
    have := labels e (List.mem_of_getLast? last)
    simp [code] at this
  · rw [List.concat_eq_append] at *
    rw [eq, ← List.append_assoc, List.getLast?_concat, Option.some.injEq] at last
    subst last
    have whole : b.entries = (ls ++ init) ++ [e'] := by rw [eq, List.append_assoc]
    refine ⟨init, rfl, whole, ?_⟩
    intro i member
    obtain ⟨e'', among, rfl⟩ := List.mem_map.1 member
    exact shaped.terminalLast e'' (by rw [whole, List.dropLast_concat]; exact among)

theorem labels_no_statements {ls : List (Nat × Instruction)}
    (labels : ∀ e ∈ ls, e.2.anchor?.isSome) : ls.filter (fun e => e.2.isStatement) = [] := by
  refine List.filter_eq_nil_iff.2 fun e member => ?_
  have := labels e member
  cases h : e.2 <;> simp_all [Instruction.anchor?, Instruction.isStatement]

theorem statements_eq {b : Block} {ls xs : List (Nat × Instruction)} (eq : b.entries = ls ++ xs)
    (labels : ∀ e ∈ ls, e.2.anchor?.isSome) :
    b.statements = (xs.map (·.2)).filter Instruction.isStatement := by
  rw [Block.statements, Block.body, eq, List.filter_append, labels_no_statements labels,
    List.nil_append, List.filter_map]
  rfl

/-- The code of a block up to its last instruction, and what that one does. -/
theorem code_round {b : Block} {ls xs : List (Nat × Instruction)} (shaped : Block.Shaped b.entries)
    (eq : b.entries = ls ++ xs) (labels : ∀ e ∈ ls, e.2.anchor?.isSome) {pc : Nat}
    {i : Instruction} (last : b.entries.getLast? = some (pc, i)) (code : i.anchor? = none)
    (whole rest : List Instruction) (o : Oracle) (met : Nat) {es : List Event}
    {r : Option (List Instruction)}
    (stepped : (Machine.ofCode whole).step o met (i :: rest) = (es, r)) :
    ∃ a before, (Machine.ofCode whole).run o (a + 1) met (xs.map (·.2) ++ rest) =
      (before.map .executes ++ es, r) ∧
        b.statements = before ++ [i].filter Instruction.isStatement := by
  obtain ⟨init, rfl, -, plain⟩ := code_before shaped eq labels last code
  refine ⟨init.length, (init.map (·.2)).filter Instruction.isStatement, ?_, ?_⟩
  · have first := run_plain whole o met (i :: rest) (init.map (·.2)) fun i member =>
      plain i (by rw [List.map_append]; exact List.mem_append_right _ member)
    rw [List.length_map] at first
    have last_step : (Machine.ofCode whole).run o 1
        (met + decisions (((init.map (·.2)).filter Instruction.isStatement).map .executes))
        (i :: rest) = (es, r) := Machine.run_one (by simpa using stepped)
    have both := Machine.run_trans first last_step
    rw [← both]
    simp
  · rw [statements_eq eq labels, List.map_append, List.filter_append]
    rfl

theorem step_out (wf : g.WellFormed) {n : Nat} {i : Instruction} {exit : Exit}
    (terminal : i.isTerminal = true)
    (left : LeavesBy g.labelled? (following g.size n) (some i) exit) (o : Oracle) (met : Nat) :
    ∃ r, (Machine.ofCode (g.codeFrom 0)).step o met (i :: g.codeFrom (n + 1)) =
        (([i].filter Instruction.isStatement).map .executes ++ exit.asks o met, r) ∧
      Option.Rel g.Ahead r (exit.leadsTo o met) := by
  cases left with
  | returns values => exact ⟨none, rfl, .none⟩
  | jumps target =>
    obtain ⟨ahead, jump, arrived⟩ := ahead_jump wf target
    refine ⟨some ahead, ?_, .some arrived⟩
    simp only [Machine.ofCode, jump]
    rfl
  | @tests c _ _ _ target next =>
    obtain ⟨ahead, jump, arrived⟩ := ahead_jump wf target
    refine ⟨some (if (o.evaluate met c).1 then ahead else g.codeFrom (n + 1)), ?_, .some ?_⟩
    · simp only [Machine.ofCode, jump]
      split <;> rfl
    · split
      · exact arrived
      · exact ahead_following next
  | @dispatches _ cases targets _ found _ _ next =>
    have choice := found (o.value met)
    simp only [Machine.ofCode, Exit.leadsTo]
    generalize cases.get? (o.value met) = l? at choice
    generalize IntMap.find (o.value met) targets = t? at choice
    cases choice with
    | none => exact ⟨_, rfl, .some (ahead_following next)⟩
    | some target =>
      obtain ⟨ahead, jump, arrived⟩ := ahead_jump wf target
      exact ⟨some ahead, by simp only [jump]; rfl, .some arrived⟩
  | falls plain => simp [plain i rfl] at terminal

theorem rounds_code (wf : g.WellFormed) :
    Machine.Rounds (.ofCode (g.codeFrom 0)) (.ofBlocks g) g.Ahead := by
  rintro o met _ n ⟨b, ls, xs, found, eq, labels, rfl⟩
  have block_step : (Machine.ofBlocks g).run o (0 + 1) met n =
      (b.statements.map .executes ++ b.exit.asks o met, b.exit.leadsTo o met) :=
    Machine.run_one (by simp [Machine.ofBlocks, found])
  have shaped := wf.shaped found
  have left := wf.leaves found
  obtain ⟨last, ends⟩ : ∃ last, b.entries.getLast?.map (·.2) = last := ⟨_, rfl⟩
  rw [ends] at left
  -- A terminal instruction says itself where control goes; behind any other lies the next block.
  by_cases out : ∃ i, last = some i ∧ i.isTerminal = true
  · obtain ⟨i, rfl, terminal⟩ := out
    obtain ⟨⟨pc, i⟩, at_end, rfl⟩ := Option.map_eq_some_iff.1 ends
    obtain ⟨r, stepped, arrived⟩ := step_out wf terminal left o met
    obtain ⟨a, before, run, statements⟩ := code_round shaped eq labels at_end
      (Instruction.anchor?_of_isTerminal terminal) (g.codeFrom 0) (g.codeFrom (n + 1)) o met stepped
    have alike : before.map Event.executes ++ (([i].filter Instruction.isStatement).map .executes ++
        b.exit.asks o met) = b.statements.map .executes ++ b.exit.asks o met := by
      rw [statements, List.map_append, List.append_assoc]
    exact ⟨a, 0, _, _, _, _, run, block_step, congrArg shown alike, arrived, fun _ => alike⟩
  generalize b.exit = exit at *
  cases left with
  | returns | jumps | tests | dispatches => simp [Instruction.isTerminal] at out
  | falls plain =>
    cases next : following g.size n with
    | some m =>
      have early : n + 1 < g.size := by
        unfold following at next
        split at next
        · assumption
        · simp at next
      obtain ⟨⟨pc, i⟩, at_end, code⟩ := wf.codeEnds early found
      have harmless : i.isTerminal = false := plain i (by rw [← ends, at_end]; rfl)
      obtain ⟨definitions, e, rfl⟩ : ∃ definitions e, i = .assign definitions e := by
        cases i <;> simp_all [Instruction.isTerminal, Instruction.anchor?]
      obtain ⟨a, before, run, statements⟩ := code_round shaped eq labels at_end rfl
        (g.codeFrom 0) (g.codeFrom (n + 1)) o met rfl
      rw [next] at block_step
      refine ⟨a, 0, _, _, _, _, run, block_step, ?_, .some (ahead_following next), by simp⟩
      rw [statements]
      simp [Exit.asks, List.filter_cons, Instruction.isStatement]
    | none =>
      have past : g.codeFrom (n + 1) = [] := by
        unfold following at next
        split at next
        · simp at next
        · exact codeFrom_end (by omega)
      -- The block ends the run at once, the code only with the step behind its last instruction.
      have all_plain : ∀ i ∈ xs.map (·.2), i.isTerminal = false := by
        intro i member
        obtain ⟨e, among, rfl⟩ := List.mem_map.1 member
        have inside : e ∈ b.entries := by rw [eq]; exact List.mem_append_right _ among
        rcases List.eq_nil_or_concat b.entries with none | ⟨init, final, concat⟩
        · simp [none] at inside
        · rw [concat, List.concat_eq_append] at inside
          rcases List.mem_append.1 inside with early | final_one
          · exact shaped.terminalLast e (by simpa [concat] using early)
          · refine plain e.2 ?_
            rw [← ends, concat, List.concat_eq_append, List.getLast?_concat,
              List.mem_singleton.1 final_one]
            rfl
      have first := run_plain (g.codeFrom 0) o met [] _ all_plain
      have last_step : (Machine.ofCode (g.codeFrom 0)).run o 1
          (met + decisions ((((xs.map (·.2)).filter Instruction.isStatement)).map .executes)) [] =
            ([], none) := Machine.run_one rfl
      have both := Machine.run_trans first last_step
      rw [next] at block_step
      rw [past]
      have alike : ((xs.map (·.2)).filter Instruction.isStatement).map Event.executes ++ [] =
          b.statements.map .executes ++ Exit.asks o met (.falls none) := by
        rw [statements_eq eq labels]
        rfl
      exact ⟨_, 0, _, _, _, _, both, block_step, congrArg shown alike, .none, fun _ => alike⟩

end FlowGraph

/-- The code of a function agrees with its block graph. -/
theorem FlowGraph.code_agrees {f : Function} {g : FlowGraph} (h : ofFunction f = .ok g) :
    Machine.Agree (.ofCode f.code.instructions) f.code.instructions (.ofBlocks g) g.entry := by
  have wf := wellFormed_of_ofFunction h
  have whole : g.codeFrom 0 = f.code.instructions := by
    rw [Chain.instructions, ← flatten_entries h, codeFrom, List.drop_zero, List.flatMap_def]
  rw [← whole]
  exact (rounds_code wf).agree (ahead_start wf.nonempty)

end ClientScript
