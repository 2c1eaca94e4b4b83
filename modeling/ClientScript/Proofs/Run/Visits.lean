import ClientScript.Proofs.Run.Blocks

/-!
Blocks that a run visits. A step of the code stays in the block or leaves it as the exit says, so
that under every oracle the code visits the blocks that the graph leads through.
-/
namespace ClientScript

namespace Machine

variable {σ : Type}

def states (m : Machine σ) (o : Oracle) : (steps : Nat) → (met : Nat) → σ → List σ
  | 0, _, s => [s]
  | n + 1, met, s =>
    s :: match m.step o met s with
      | (_, none) => []
      | (es, some t) => m.states o n (met + decisions es) t

theorem states_cons (m : Machine σ) (o : Oracle) (n met : Nat) (s : σ) :
    ∃ later, m.states o n met s = s :: later := by
  cases n with
  | zero => exact ⟨[], rfl⟩
  | succ n => exact ⟨_, rfl⟩

variable {m : Machine σ} {o : Oracle} {met : Nat} {s t : σ} {es : List Event}

theorem states_over (h : m.step o met s = (es, none)) (n : Nat) :
    m.states o (n + 1) met s = [s] ∧ (m.run o (n + 1) met s).2 = none := by
  rw [states, run, h]
  exact ⟨rfl, rfl⟩

theorem states_on (h : m.step o met s = (es, some t)) (n : Nat) :
    m.states o (n + 1) met s = s :: m.states o n (met + decisions es) t ∧
      (m.run o (n + 1) met s).2 = (m.run o n (met + decisions es) t).2 := by
  rw [states, run, h]
  exact ⟨rfl, rfl⟩

end Machine

namespace FlowGraph

/-- The block that the code ahead begins in; at the end of the code it is the last one. -/
def blockAt (g : FlowGraph) (ahead : List Instruction) : Nat :=
  ((List.range g.size).find? fun n => (g.codeFrom (n + 1)).length < ahead.length).getD (g.size - 1)

def leaves (g : FlowGraph) (ahead next : List Instruction) : Bool :=
  ahead.head?.any Instruction.isTerminal || g.blockAt ahead != g.blockAt next

/-- The blocks that the states of a run are in, each as often as it is entered. -/
def visits (g : FlowGraph) : List (List Instruction) → List Nat
  | [] => []
  | [ahead] => [g.blockAt ahead]
  | ahead :: next :: later =>
    if g.leaves ahead next then g.blockAt ahead :: g.visits (next :: later)
    else g.visits (next :: later)

def Inside (g : FlowGraph) (ahead : List Instruction) (n : Nat) : Prop :=
  ∃ b passed xs, g.block? n = some b ∧ b.entries = passed ++ xs ∧
    (∀ e ∈ passed, e.2.isTerminal = false) ∧ ahead = xs.map (·.2) ++ g.codeFrom (n + 1) ∧
    (xs = [] → g.size ≤ n + 1)

variable {g : FlowGraph} {ahead next : List Instruction} {n : Nat}

theorem Ahead.inside (wf : g.WellFormed) (h : g.Ahead ahead n) : g.Inside ahead n := by
  obtain ⟨b, ls, xs, found, eq, labels, rfl⟩ := h
  refine ⟨b, ls, xs, found, eq, ?_, rfl, ?_⟩
  · intro e member
    have label := labels e member
    cases same : e.2 <;> simp_all [Instruction.anchor?, Instruction.isTerminal]
  · rintro rfl
    by_contra early
    obtain ⟨e, last, code⟩ := wf.codeEnds (Nat.lt_of_not_le early) found
    rw [eq, List.append_nil] at last
    have label := labels e (List.mem_of_getLast? last)
    simp [code] at label

theorem length_codeFrom_le {m : Nat} (le : m ≤ n) :
    (g.codeFrom n).length ≤ (g.codeFrom m).length := by
  have shorter := List.drop_sublist_drop_left g.blocks.toList le
  exact ((shorter.flatMap (f := Block.entries)).map _).length_le

theorem Inside.blockAt (h : g.Inside ahead n) : g.blockAt ahead = n := by
  obtain ⟨b, passed, xs, found, eq, -, rfl, last⟩ := h
  have inside : n < g.size := block_inside found
  have whole := codeFrom_eq found
  rcases List.eq_nil_or_concat xs with rfl | ⟨init, e, rfl⟩
  · have final := last rfl
    have nothing : (List.range g.size).find? (fun m => (g.codeFrom (m + 1)).length <
        ((([] : List (Nat × Instruction)).map (·.2)) ++ g.codeFrom (n + 1)).length) = none :=
      List.find?_eq_none.2 (by simp [codeFrom_end final])
    rw [FlowGraph.blockAt, nothing, Option.getD_none]
    omega
  · have first : (List.range g.size).find? (fun m => (g.codeFrom (m + 1)).length <
        ((init.concat e).map (·.2) ++ g.codeFrom (n + 1)).length) = some n := by
      rw [List.find?_range_eq_some]
      refine ⟨?_, List.mem_range.2 inside, fun m before => ?_⟩
      · simp
        omega
      · have longer := length_codeFrom_le (g := g) (Nat.succ_le_of_lt before)
        rw [whole, eq] at longer
        simp at longer ⊢
        omega
    rw [FlowGraph.blockAt, first]
    rfl

theorem exit_of_plain (wf : g.WellFormed) {b : Block} (found : g.block? n = some b)
    (plain : ∀ e ∈ b.entries, e.2.isTerminal = false) : b.exit = .falls (following g.size n) := by
  have left := wf.leaves found
  have quiet : ∀ i, b.entries.getLast?.map (·.2) = some i → i.isTerminal = false := by
    intro i last
    obtain ⟨e, ends, rfl⟩ := Option.map_eq_some_iff.1 last
    exact plain e (List.mem_of_getLast? ends)
  generalize b.exit = exit at *
  generalize b.entries.getLast?.map (·.2) = last at *
  cases left with
  | falls => rfl
  | returns | jumps | tests | dispatches => simp [Instruction.isTerminal] at quiet

theorem step_plain (code rest : List Instruction) (o : Oracle) (met : Nat) {i : Instruction}
    (plain : i.isTerminal = false) : ∃ es, (Machine.ofCode code).step o met (i :: rest) =
      (es, some rest) ∧ decisions es = 0 := by
  cases i with
  | assign definitions e => exact ⟨_, rfl, rfl⟩
  | label l => exact ⟨_, rfl, rfl⟩
  | branch | goto | switch | ret => simp [Instruction.isTerminal] at plain

inductive Stands (g : FlowGraph) (n : Nat) (b : Block) : List Instruction → Prop
  | past (exit : b.exit = .falls none) : Stands g n b []
  | within {i : Instruction} {rest : List Instruction} (quiet : i.isTerminal = false)
      (inside : g.Inside rest n) (same : g.leaves (i :: rest) rest = false) :
      Stands g n b (i :: rest)
  | final {i : Instruction} {rest : List Instruction} (quiet : i.isTerminal = false)
      (exit : b.exit = .falls (some (n + 1))) (inside : g.Inside rest (n + 1))
      (other : g.leaves (i :: rest) rest = true) : Stands g n b (i :: rest)
  | terminal {i : Instruction} (terminal : i.isTerminal = true)
      (left : LeavesBy g.labelled? (following g.size n) (some i) b.exit) :
      Stands g n b (i :: g.codeFrom (n + 1))

theorem stands_quiet (wf : g.WellFormed) {b : Block} {e : Nat × Instruction}
    {passed xs : List (Nat × Instruction)} (found : g.block? n = some b)
    (eq : b.entries = passed ++ e :: xs) (plain : ∀ e' ∈ passed, e'.2.isTerminal = false)
    (quiet : e.2.isTerminal = false) :
    g.Stands n b ((e :: xs).map (·.2) ++ g.codeFrom (n + 1)) := by
  have here : g.Inside ((e :: xs).map (·.2) ++ g.codeFrom (n + 1)) n :=
    ⟨b, passed, e :: xs, found, eq, plain, rfl, by simp⟩
  have further : b.entries = (passed ++ [e]) ++ xs := by simp [eq]
  have plain' : ∀ e' ∈ passed ++ [e], e'.2.isTerminal = false := by
    intro e' member
    rcases List.mem_append.1 member with old | new
    · exact plain e' old
    · exact List.mem_singleton.1 new ▸ quiet
  by_cases last : xs = [] ∧ n + 1 < g.size
  · obtain ⟨rfl, early⟩ := last
    have there : g.Inside (g.codeFrom (n + 1)) (n + 1) := (ahead_start early).inside wf
    have exit : b.exit = .falls (some (n + 1)) := by
      rw [exit_of_plain wf found (by simpa [further] using plain'), following, if_pos early]
    refine .final quiet exit there ?_
    have left := here.blockAt
    simp only [List.map_cons, List.map_nil, List.cons_append, List.nil_append] at left
    simp [FlowGraph.leaves, left, there.blockAt]
  · have there : g.Inside (xs.map (·.2) ++ g.codeFrom (n + 1)) n :=
      ⟨b, _, xs, found, further, plain', rfl, fun empty => by
        by_contra early
        exact last ⟨empty, Nat.lt_of_not_le early⟩⟩
    refine .within quiet there ?_
    have stayed := here.blockAt
    simp only [List.map_cons, List.cons_append] at stayed
    simp [FlowGraph.leaves, stayed, there.blockAt, quiet]

theorem stands (wf : g.WellFormed) (h : g.Inside ahead n) :
    ∃ b, g.block? n = some b ∧ g.Stands n b ahead := by
  obtain ⟨b, passed, xs, found, eq, plain, rfl, last⟩ := h
  refine ⟨b, found, ?_⟩
  cases xs with
  | nil =>
    have past := last rfl
    rw [codeFrom_end past, List.map_nil, List.append_nil]
    refine .past ?_
    rw [exit_of_plain wf found (by simpa [eq] using plain), following, if_neg (by omega)]
  | cons e xs =>
    cases terminal : e.2.isTerminal with
    | false => exact stands_quiet wf found eq plain terminal
    | true =>
      -- What is terminal is last.
      have end_ : xs = [] := by
        by_contra more
        have early : e ∈ b.entries.dropLast := by
          rw [eq, List.dropLast_append_of_ne_nil (by simp), List.dropLast_cons_of_ne_nil more]
          simp
        rw [(wf.shaped found).terminalLast e early] at terminal
        simp at terminal
      subst end_
      have left := wf.leaves found
      rw [eq, List.getLast?_append, List.getLast?_singleton, Option.some_or,
        Option.map_some] at left
      exact .terminal terminal left

inductive Goes (g : FlowGraph) (o : Oracle) (met : Nat) (ahead : List Instruction) (n : Nat)
    (b : Block) : Prop
  | ends {es : List Event}
      (stepped : (Machine.ofCode (g.codeFrom 0)).step o met ahead = (es, none))
      (nowhere : b.exit.leadsTo o met = none)
  | stays {es : List Event} {next : List Instruction}
      (stepped : (Machine.ofCode (g.codeFrom 0)).step o met ahead = (es, some next))
      (shorter : next.length < ahead.length) (silent : decisions es = 0)
      (inside : g.Inside next n) (same : g.leaves ahead next = false)
  | leaves {es : List Event} {next : List Instruction} {m : Nat}
      (stepped : (Machine.ofCode (g.codeFrom 0)).step o met ahead = (es, some next))
      (leads : b.exit.leadsTo o met = some m)
      (asked : decisions es = decisions (b.exit.asks o met))
      (inside : g.Inside next m) (other : g.leaves ahead next = true)

theorem goes (wf : g.WellFormed) {b : Block} (h : g.Stands n b ahead) (o : Oracle) (met : Nat) :
    g.Goes o met ahead n b := by
  cases h with
  | past exit => exact .ends rfl (by rw [exit]; rfl)
  | within quiet inside same =>
    obtain ⟨es, stepped, silent⟩ := step_plain (g.codeFrom 0) _ o met quiet
    exact .stays stepped (by simp) silent inside same
  | final quiet exit inside other =>
    obtain ⟨es, stepped, silent⟩ := step_plain (g.codeFrom 0) _ o met quiet
    exact .leaves stepped (by rw [exit]; rfl) (by rw [exit]; exact silent) inside other
  | terminal terminal left =>
    obtain ⟨r, stepped, arrived⟩ := step_out wf terminal left o met
    generalize leads : b.exit.leadsTo o met = target at arrived
    cases arrived with
    | none => exact .ends stepped leads
    | some arrived =>
      exact .leaves stepped leads (by simp) (arrived.inside wf)
        (by simp [FlowGraph.leaves, terminal])

theorem visits_stays (same : g.leaves ahead next = false) (later : List (List Instruction)) :
    g.visits (ahead :: next :: later) = g.visits (next :: later) := by
  rw [visits, same]
  rfl

theorem visits_leaves (other : g.leaves ahead next = true) (later : List (List Instruction)) :
    g.visits (ahead :: next :: later) = g.blockAt ahead :: g.visits (next :: later) := by
  rw [visits, other]
  rfl

/-- Runs of the code and of the blocks that visit the same blocks, and are both over or both not. -/
def Abreast (g : FlowGraph) (o : Oracle) (met : Nat) (ahead : List Instruction) (n k j : Nat) :
    Prop :=
  g.visits ((Machine.ofCode (g.codeFrom 0)).states o k met ahead) =
      (Machine.ofBlocks g).states o j met n ∧
    (((Machine.ofCode (g.codeFrom 0)).run o k met ahead).2 = none ↔
      ((Machine.ofBlocks g).run o j met n).2 = none)

variable {o : Oracle} {met : Nat}

theorem abreast_start (h : g.Inside ahead n) : g.Abreast o met ahead n 0 0 :=
  ⟨congrArg (fun m => [m]) h.blockAt, by simp [Machine.run]⟩

theorem step_blocks (o : Oracle) (met : Nat) {b : Block} (found : g.block? n = some b) :
    (Machine.ofBlocks g).step o met n =
      (b.statements.map .executes ++ b.exit.asks o met, b.exit.leadsTo o met) := by
  simp [Machine.ofBlocks, found]

theorem abreast_over {b : Block} (h : g.Inside ahead n) (found : g.block? n = some b)
    {es : List Event} (stepped : (Machine.ofCode (g.codeFrom 0)).step o met ahead = (es, none))
    (nowhere : b.exit.leadsTo o met = none) (k j : Nat) :
    g.Abreast o met ahead n (k + 1) (j + 1) := by
  have block := step_blocks o met found
  rw [nowhere] at block
  obtain ⟨code_states, code_run⟩ := Machine.states_over stepped k
  obtain ⟨block_states, block_run⟩ := Machine.states_over block j
  rw [Abreast, code_states, code_run, block_states, block_run]
  exact ⟨congrArg (fun m => [m]) h.blockAt, by simp⟩

theorem abreast_stays {es : List Event}
    (stepped : (Machine.ofCode (g.codeFrom 0)).step o met ahead = (es, some next))
    (silent : decisions es = 0) (same : g.leaves ahead next = false) {k j : Nat}
    (later : g.Abreast o met next n k j) : g.Abreast o met ahead n (k + 1) j := by
  obtain ⟨code_states, code_run⟩ := Machine.states_on stepped k
  simp only [silent, Nat.add_zero] at code_states code_run
  obtain ⟨states, starts⟩ := (Machine.ofCode (g.codeFrom 0)).states_cons o k met next
  rw [Abreast, code_states, code_run, starts, visits_stays same, ← starts]
  exact later

theorem abreast_leaves {b : Block} {m : Nat} (h : g.Inside ahead n) (found : g.block? n = some b)
    {es : List Event} (stepped : (Machine.ofCode (g.codeFrom 0)).step o met ahead = (es, some next))
    (leads : b.exit.leadsTo o met = some m)
    (asked : decisions es = decisions (b.exit.asks o met)) (other : g.leaves ahead next = true)
    {k j : Nat} (later : g.Abreast o (met + decisions es) next m k j) :
    g.Abreast o met ahead n (k + 1) (j + 1) := by
  have block := step_blocks o met found
  rw [leads] at block
  obtain ⟨code_states, code_run⟩ := Machine.states_on stepped k
  obtain ⟨block_states, block_run⟩ := Machine.states_on block j
  rw [decisions_append, decisions_executes, Nat.zero_add, ← asked] at block_states block_run
  obtain ⟨states, starts⟩ :=
    (Machine.ofCode (g.codeFrom 0)).states_cons o k (met + decisions es) next
  rw [Abreast, code_states, code_run, block_states, block_run, starts, visits_leaves other,
    ← starts, h.blockAt, later.1]
  exact ⟨rfl, later.2⟩

theorem exists_abreast_code (wf : g.WellFormed) (h : g.Inside ahead n) (o : Oracle) (met k : Nat) :
    ∃ j, g.Abreast o met ahead n k j := by
  induction k generalizing met ahead n with
  | zero => exact ⟨0, abreast_start h⟩
  | succ k ih =>
    obtain ⟨b, found, stands⟩ := stands wf h
    cases goes wf stands o met with
    | ends stepped nowhere => exact ⟨1, abreast_over h found stepped nowhere k 0⟩
    | stays stepped _ silent inside same =>
      obtain ⟨j, later⟩ := ih inside met
      exact ⟨j, abreast_stays stepped silent same later⟩
    | leaves stepped leads asked inside other =>
      obtain ⟨j, later⟩ := ih inside _
      exact ⟨j + 1, abreast_leaves h found stepped leads asked other later⟩

/-- The graph leads through blocks that the code visits: it does not stay in a block forever. -/
theorem exists_abreast_blocks (wf : g.WellFormed) (h : g.Inside ahead n) (o : Oracle)
    (met j : Nat) : ∃ k, g.Abreast o met ahead n k j := by
  induction j generalizing met ahead n with
  | zero => exact ⟨0, abreast_start h⟩
  | succ j ih =>
    -- Within a block the code ahead gets shorter.
    induction size : ahead.length using Nat.strongRecOn generalizing ahead with
    | ind size shorter_ih =>
      obtain ⟨b, found, stands⟩ := stands wf h
      cases goes wf stands o met with
      | ends stepped nowhere => exact ⟨1, abreast_over h found stepped nowhere 0 j⟩
      | stays stepped shorter silent inside same =>
        obtain ⟨k, later⟩ := shorter_ih _ (size ▸ shorter) inside rfl
        exact ⟨k + 1, abreast_stays stepped silent same later⟩
      | leaves stepped leads asked inside other =>
        obtain ⟨k, later⟩ := ih inside _
        exact ⟨k + 1, abreast_leaves h found stepped leads asked other later⟩

end FlowGraph

end ClientScript
