import ClientScript.Proofs.Flow.Refusal
import ClientScript.Proofs.Run.Visits

/-!
Ways through code. A way goes on or jumps as an instruction may, whatever tests and switches come
to. Main statement: the blocks that a way visits are a path through the block graph, and each path
is visited by some way.
-/
namespace ClientScript

inductive Turns (code : List Instruction) : List Instruction → List Instruction → Prop
  | jump {i : Instruction} {rest next : List Instruction} {l : Label} (target : l ∈ i.targets)
      (lands : behind l code = some next) : Turns code (i :: rest) next
  | on {i : Instruction} {rest : List Instruction} (falls : i.fallsThrough = true) :
      Turns code (i :: rest) rest

/-- The code ahead at each moment of a way. -/
inductive Way (code : List Instruction) : List Instruction → List (List Instruction) → Prop
  | here (ahead : List Instruction) : Way code ahead [ahead]
  | turn {ahead next : List Instruction} {states : List (List Instruction)}
      (turns : Turns code ahead next) (later : Way code next states) :
      Way code ahead (ahead :: states)

variable {code ahead next : List Instruction} {states : List (List Instruction)}

theorem Way.starts (h : Way code ahead states) : ∃ later, states = ahead :: later := by
  cases h with
  | here => exact ⟨[], rfl⟩
  | turn => exact ⟨_, rfl⟩

theorem turns_of_step {o : Oracle} {met : Nat} {es : List Event}
    (stepped : (Machine.ofCode code).step o met ahead = (es, some next)) :
    Turns code ahead next := by
  cases ahead with
  | nil => simp [Machine.ofCode] at stepped
  | cons i rest =>
    have target := congrArg Prod.snd stepped
    cases i with
    | assign | label => exact Option.some.inj target ▸ .on rfl
    | ret => simp [Machine.ofCode] at target
    | goto l => exact .jump (by simp [Instruction.targets]) target
    | branch c l =>
      simp only [Machine.ofCode] at target
      split at target
      · exact .jump (by simp [Instruction.targets]) target
      · exact Option.some.inj target ▸ .on rfl
    | switch e cases =>
      simp only [Machine.ofCode] at target
      split at target
      · rename_i l chosen
        exact .jump ((IntMap.mem_snd_iff cases.ascending).2 ⟨_, chosen⟩) target
      · exact Option.some.inj target ▸ .on rfl

theorem way_states (code : List Instruction) (o : Oracle) (steps met : Nat)
    (ahead : List Instruction) :
    Way code ahead ((Machine.ofCode code).states o steps met ahead) := by
  induction steps generalizing met ahead with
  | zero => exact .here ahead
  | succ steps ih =>
    rw [Machine.states]
    split
    · exact .here ahead
    · rename_i stepped
      exact .turn (turns_of_step stepped) (ih _ _)

namespace FlowGraph

variable {blockOf : Label → Option Nat} {after : Option Nat} {i : Instruction} {exit : Exit}
  {m : Nat}

theorem resolved_case {l? : Option Label} {n? : Option Nat} {l : Label}
    (choice : Option.Rel (fun l n => blockOf l = some n) l? n?) (chosen : l? = some l) :
    ∃ n, n? = some n ∧ blockOf l = some n := by
  subst chosen
  cases choice with
  | some found => exact ⟨_, rfl, found⟩

theorem LeavesBy.mem_successors (left : LeavesBy blockOf after (some i) exit) :
    m ∈ exit.successors ↔
      (∃ l ∈ i.targets, blockOf l = some m) ∨ i.fallsThrough = true ∧ after = some m := by
  cases left with
  | returns values =>
    simp [Exit.successors, Exit.edges, Instruction.targets, Instruction.fallsThrough]
  | jumps found =>
    simp [Exit.successors, Exit.edges, Instruction.targets, Instruction.fallsThrough, found,
      eq_comm]
  | tests found rest =>
    simp [Exit.successors, Exit.edges, Instruction.targets, Instruction.fallsThrough, found, rest,
      eq_comm]
  | @dispatches e cases targets default found ascending each rest =>
    have listed := IntMap.mem_snd_iff (a := m) ascending
    -- Cases and their blocks go by number.
    have ways : (∃ l ∈ cases.values, blockOf l = some m) ↔ ∃ v, IntMap.find v targets = some m := by
      constructor
      · rintro ⟨l, member, same⟩
        obtain ⟨v, chosen⟩ := (IntMap.mem_snd_iff cases.ascending).1 member
        obtain ⟨n, target, found⟩ := resolved_case (found v) chosen
        exact ⟨v, target.trans (found.symm.trans same)⟩
      · rintro ⟨v, target⟩
        have choice := found v
        rw [target] at choice
        generalize chosen : cases.get? v = l? at choice
        cases choice with
        | some found => exact ⟨_, (IntMap.mem_snd_iff cases.ascending).2 ⟨v, chosen⟩, found⟩
    have out : (Exit.dispatches e targets default).successors =
        targets.map Prod.snd ++ [default] := by
      simp [Exit.successors, Exit.edges, Function.comp_def]
    rw [out, List.mem_append, listed, List.mem_singleton, rest, Option.some.injEq, eq_comm]
    simp [Instruction.targets, Instruction.fallsThrough, ways]
  | falls plain =>
    have quiet := plain i rfl
    have falls := Instruction.fallsThrough_of_not_isTerminal quiet
    rw [Instruction.targets_of_not_isTerminal quiet]
    cases after <;> simp [Exit.successors, Exit.edges, falls, eq_comm]

theorem LeavesBy.resolved (left : LeavesBy blockOf after (some i) exit) {l : Label}
    (target : l ∈ i.targets) : ∃ m, blockOf l = some m := by
  cases left with
  | returns => simp [Instruction.targets] at target
  | jumps found | tests found =>
    obtain rfl := List.mem_singleton.1 target
    exact ⟨_, found⟩
  | @dispatches e cases _ _ found =>
    obtain ⟨v, chosen⟩ := (IntMap.mem_snd_iff cases.ascending).1 target
    obtain ⟨n, -, found⟩ := resolved_case (found v) chosen
    exact ⟨n, found⟩
  | falls plain => simp [Instruction.targets_of_not_isTerminal (plain i rfl)] at target

theorem LeavesBy.goes_on (left : LeavesBy blockOf after (some i) exit)
    (terminal : i.isTerminal = true) (falls : i.fallsThrough = true) : ∃ m, after = some m := by
  cases left with
  | returns | jumps => simp [Instruction.fallsThrough] at falls
  | tests _ rest | dispatches _ _ _ rest => exact ⟨_, rest⟩
  | falls plain => simp [plain i rfl] at terminal

variable {g : FlowGraph} {n : Nat} {b : Block}

theorem turn_cases (wf : g.WellFormed) (stands : g.Stands n b ahead)
    (turns : Turns (g.codeFrom 0) ahead next) :
    (g.Inside next n ∧ g.leaves ahead next = false) ∨
      ∃ m ∈ b.exit.successors, g.Inside next m ∧ g.leaves ahead next = true := by
  cases stands with
  | past => cases turns
  | within quiet inside same =>
    cases turns with
    | jump target => simp [Instruction.targets_of_not_isTerminal quiet] at target
    | on => exact .inl ⟨inside, same⟩
  | final quiet exit inside other =>
    cases turns with
    | jump target => simp [Instruction.targets_of_not_isTerminal quiet] at target
    | on => exact .inr ⟨n + 1, by simp [exit, Exit.successors, Exit.edges], inside, other⟩
  | @terminal i terminal left =>
    have other : g.leaves (i :: g.codeFrom (n + 1)) next = true := by
      simp [FlowGraph.leaves, terminal]
    cases turns with
    | jump target lands =>
      obtain ⟨m, found⟩ := left.resolved target
      obtain ⟨ahead, jump, arrived⟩ := ahead_jump wf found
      obtain rfl : next = ahead := Option.some.inj (lands.symm.trans jump)
      exact .inr ⟨m, left.mem_successors.2 (.inl ⟨_, target, found⟩), arrived.inside wf, other⟩
    | on falls =>
      obtain ⟨m, behind⟩ := left.goes_on terminal falls
      exact .inr ⟨m, left.mem_successors.2 (.inr ⟨falls, behind⟩),
        (ahead_following behind).inside wf, other⟩

theorem exists_turn (wf : g.WellFormed) {i : Instruction} {m : Nat}
    (left : LeavesBy g.labelled? (following g.size n) (some i) b.exit)
    (out : m ∈ b.exit.successors) :
    ∃ next, Turns (g.codeFrom 0) (i :: g.codeFrom (n + 1)) next ∧ g.Inside next m := by
  rcases left.mem_successors.1 out with ⟨l, target, found⟩ | ⟨falls, behind⟩
  · obtain ⟨next, jump, arrived⟩ := ahead_jump wf found
    exact ⟨next, .jump target jump, arrived.inside wf⟩
  · exact ⟨_, .on falls, (ahead_following behind).inside wf⟩

theorem walk_of_way (wf : g.WellFormed) (way : Way (g.codeFrom 0) ahead states)
    (h : g.Inside ahead n) : ∃ m, Walk g.toDigraph.next n m (g.visits states) := by
  induction way generalizing n with
  | here ahead =>
    rw [visits, h.blockAt]
    exact ⟨n, .one n⟩
  | turn turns later ih =>
    obtain ⟨b, found, stands⟩ := stands wf h
    obtain ⟨rest, rfl⟩ := later.starts
    rcases turn_cases wf stands turns with ⟨inside, same⟩ | ⟨s, out, inside, other⟩
    · rw [visits_stays same]
      exact ih inside
    · obtain ⟨m, walk⟩ := ih inside
      rw [visits_leaves other, h.blockAt]
      exact ⟨m, .step ((mem_next wf).2 ⟨b, found, out⟩) walk⟩

/-- Each path through the graph has a way that visits its blocks. -/
theorem way_of_walk (wf : g.WellFormed) {m : Nat} {nodes : List Nat}
    (walk : Walk g.toDigraph.next n m nodes) (h : g.Inside ahead n) :
    ∃ states, Way (g.codeFrom 0) ahead states ∧ g.visits states = nodes := by
  induction walk generalizing ahead with
  | one n => exact ⟨[ahead], .here ahead, by rw [visits, h.blockAt]⟩
  | @step n s m nodes edge rest ih =>
    obtain ⟨b', found', out⟩ := (mem_next wf).1 edge
    -- Within a block the code ahead gets shorter.
    induction size : ahead.length using Nat.strongRecOn generalizing ahead with
    | ind size shorter_ih =>
      obtain ⟨b, found, stands⟩ := stands wf h
      obtain rfl : b = b' := Option.some.inj (found.symm.trans found')
      have leave {next : List Instruction} (turns : Turns (g.codeFrom 0) ahead next)
          (inside : g.Inside next s) (other : g.leaves ahead next = true) :
          ∃ states, Way (g.codeFrom 0) ahead states ∧ g.visits states = n :: nodes := by
        obtain ⟨states, way, visited⟩ := ih inside
        obtain ⟨later, rfl⟩ := way.starts
        exact ⟨_, .turn turns way, by rw [visits_leaves other, h.blockAt, visited]⟩
      cases stands with
      | past exit => simp [exit, Exit.successors, Exit.edges] at out
      | @within i rest quiet inside same =>
        have falls := Instruction.fallsThrough_of_not_isTerminal quiet
        obtain ⟨states, way, visited⟩ := shorter_ih rest.length (by simp [← size]) inside rfl
        obtain ⟨later, rfl⟩ := way.starts
        exact ⟨_, .turn (.on falls) way, by rw [visits_stays same, visited]⟩
      | @final i rest quiet exit inside other =>
        have falls := Instruction.fallsThrough_of_not_isTerminal quiet
        obtain rfl : s = n + 1 := by
          simpa [exit, Exit.successors, Exit.edges] using out
        exact leave (.on falls) inside other
      | terminal terminal left =>
        obtain ⟨next, turns, inside⟩ := exists_turn wf left out
        exact leave turns inside (by simp [FlowGraph.leaves, terminal])

end FlowGraph

end ClientScript
