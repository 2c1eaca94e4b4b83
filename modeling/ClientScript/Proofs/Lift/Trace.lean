import ClientScript.Proofs.Lift.Requests

/-!
The trace of a lift: the frame in which each position is lifted, and the step from it to the next.
Slots are numbered on along the trace, so that the stack holds the younger slots above the older,
and what is read is gone for good.
-/
namespace ClientScript

/-- The frame in which a position of the script is lifted: what the positions before come to. -/
def Context.frameAt? (ctx : Context) (table : Table) (pc : Nat) : Option Frame :=
  match (Lift.positions ctx table 0 (ctx.code.opcodes.take pc)).run.run Frame.start with
  | (.ok _, frame) => some frame
  | (.error _, _) => none

namespace Lift

variable {ctx : Context} {table : Table} {f f' : Frame} {insns : List Instruction}

theorem comes_positions_append {pc : Nat} {xs ys : List Opcode} :
    Comes (positions ctx table pc (xs ++ ys)) f insns f' ↔ ∃ is f₁ js,
      Comes (positions ctx table pc xs) f is f₁ ∧
      Comes (positions ctx table (pc + xs.length) ys) f₁ js f' ∧ insns = is ++ js := by
  induction xs generalizing pc f insns with
  | nil =>
    constructor
    · exact fun h => ⟨[], f, insns, comes_pure.2 ⟨rfl, rfl⟩, h, rfl⟩
    · rintro ⟨is, f₁, js, first, second, rfl⟩
      obtain ⟨rfl, rfl⟩ := comes_pure.1 first
      exact second
  | cons x xs ih =>
    have shift : pc + (x :: xs).length = pc + 1 + xs.length := by
      rw [List.length_cons, Nat.add_right_comm, Nat.add_assoc]
    rw [List.cons_append, comes_positions_cons, shift]
    constructor
    · rintro ⟨i, f₁, rest, one, later, rfl⟩
      obtain ⟨is, f₂, js, first, second, rfl⟩ := ih.1 later
      exact ⟨i :: is, f₂, js, comes_positions_cons.2 ⟨i, f₁, is, one, first, rfl⟩, second, rfl⟩
    · rintro ⟨is, f₂, js, h, second, rfl⟩
      obtain ⟨i, f₁, rest, one, first, rfl⟩ := comes_positions_cons.1 h
      exact ⟨i, f₁, rest ++ js, one, ih.2 ⟨rest, f₂, js, first, second, rfl⟩, rfl⟩

/-- Where a position is lifted does not matter to what it takes and puts. -/
theorem step_of_position {pc : Nat} {opcode : Opcode} {i : Instruction}
    (h : Comes (position ctx table opcode) { f with pc := pc } i f') :
    Step ctx opcode f f' i ∧ (i.isTerminal = true → f'.stack = []) ∧
      (table.lookup? opcode).isSome := by
  obtain ⟨⟨taken, put, asked, motion, uses, asks⟩, empties, named⟩ := step_position h
  exact ⟨⟨taken, put, asked, ⟨motion.stack, motion.numbers, motion.next, motion.effects⟩, uses,
    asks⟩, empties, named⟩

theorem frameAt_of_comes {pc : Nat}
    (h : Comes (positions ctx table 0 (ctx.code.opcodes.take pc)) .start insns f) :
    ctx.frameAt? table pc = some f := by
  unfold Comes at h
  rw [Context.frameAt?, h]

theorem effects_positions {pc : Nat} {opcodes : List Opcode}
    (h : Comes (positions ctx table pc opcodes) f insns f') : f.effects ⊆ f'.effects := by
  induction opcodes generalizing pc f insns with
  | nil =>
    obtain ⟨-, rfl⟩ := comes_pure.1 h
    exact List.Subset.refl _
  | cons opcode opcodes ih =>
    obtain ⟨i, f₁, rest, one, later, -⟩ := comes_positions_cons.1 h
    obtain ⟨⟨_, _, _, motion, -, -⟩, -, -⟩ := step_of_position one
    refine List.Subset.trans ?_ (ih later)
    rw [motion.effects]
    exact List.subset_append_left _ _

theorem position_at {F : Frame}
    (all : Comes (positions ctx table 0 ctx.code.opcodes) .start insns F) {pc : Nat}
    {i : Instruction} (found : insns[pc]? = some i) : ∃ opcode F₁ F₂ rest,
      ctx.code.opcodes[pc]? = some opcode ∧ ctx.frameAt? table pc = some F₁ ∧
      ctx.frameAt? table (pc + 1) = some F₂ ∧
      Comes (position ctx table opcode) { F₁ with pc := pc } i F₂ ∧
      Comes (positions ctx table (pc + 1) (ctx.code.opcodes.drop (pc + 1))) F₂ rest F := by
  obtain ⟨short, rfl⟩ := List.getElem?_eq_some_iff.1 found
  have within : pc < ctx.code.opcodes.length := length_positions all ▸ short
  have split := List.take_append_drop pc ctx.code.opcodes
  rw [List.drop_eq_getElem_cons within] at split
  rw [← split] at all
  obtain ⟨before, F₁, rest, first, second, rfl⟩ := comes_positions_append.1 all
  have size := length_positions first
  rw [List.length_take_of_le (Nat.le_of_lt within)] at size second
  rw [Nat.zero_add] at second
  obtain ⟨i, F₂, after, one, later, rfl⟩ := comes_positions_cons.1 second
  have here : (before ++ i :: after)[pc] = i := by
    rw [List.getElem_append_right (Nat.le_of_eq size)]
    simp [size]
  rw [here]
  refine ⟨_, F₁, F₂, after, List.getElem?_eq_getElem within, frameAt_of_comes first, ?_, one, later⟩
  have further : Comes (positions ctx table 0 (ctx.code.opcodes.take (pc + 1))) .start
      (before ++ [i]) F₂ := by
    rw [List.take_succ_eq_append_getElem within]
    refine comes_positions_append.2 ⟨before, F₁, [i], first, ?_, rfl⟩
    rw [List.length_take_of_le (Nat.le_of_lt within), Nat.zero_add]
    exact comes_positions_cons.2 ⟨i, F₂, [], one, comes_pure.2 ⟨rfl, rfl⟩, rfl⟩
  exact frameAt_of_comes further

end Lift

/-- What is known of each position of a script that lifts. -/
structure Context.Traced (ctx : Context) (table : Table) (f : Function)
    (insns : List Instruction) : Prop where
  code : f.code = Lift.anchored insns
  count : insns.length = ctx.code.length
  plain : ∀ i ∈ insns, i.anchor? = none
  targets : ∀ i ∈ insns, ∀ l ∈ i.targets, l < insns.length
  steps : ∀ pc i, insns[pc]? = some i → ∃ opcode F F', (table.lookup? opcode).isSome ∧
    ctx.frameAt? table pc = some F ∧ ctx.frameAt? table (pc + 1) = some F' ∧
    Lift.Step ctx opcode F F' i ∧ (i.isTerminal = true → F'.stack = []) ∧
    F'.effects ⊆ (ctx.lift table).effects
  finish : ∃ F, ctx.frameAt? table insns.length = some F ∧ F.stack = []

open Lift in
theorem Context.positions_of_lift {ctx : Context} {table : Table} {f : Function}
    (lifted : (ctx.lift table).result = .ok f) : ∃ insns F,
      Comes (positions ctx table 0 ctx.code.opcodes) .start insns F ∧ F.stack = [] ∧
      f = ⟨ctx.script, Variable.parameters ctx.script ctx.code.arguments, anchored insns,
        ctx.code.returns⟩ ∧
      (∀ i ∈ insns, ∀ l ∈ i.targets, l < insns.length) ∧
      F.effects ⊆ (ctx.lift table).effects := by
  rcases run : (Lift.function ctx table).run.run Frame.start with ⟨result, frame⟩
  have whole : (ctx.lift table).effects = frame.effects := by rw [Context.lift, run]
  rw [Context.lift, run] at lifted
  simp only at lifted
  subst lifted
  have made : Comes (Lift.function ctx table) .start f frame := run
  obtain ⟨insns, F, all, h₁⟩ := comes_bind.1 made
  have h₂ := comes_get_bind.1 h₁
  split at h₂
  · exact absurd h₂ not_comes_imbalance
  rename_i balanced
  split at h₂
  · exact absurd h₂ not_comes_malformed
  rename_i inside
  obtain ⟨_, f₂, declared, h₃⟩ := comes_bind.1 h₂
  obtain ⟨rfl, rfl⟩ := comes_pure.1 h₃
  obtain ⟨-, _, moved⟩ := moved_typedAll declared
  refine ⟨insns, F, all, by simpa using balanced, rfl, ?_, ?_⟩
  · intro i member l target
    by_contra outside
    have among : l ∈ (jumpTargets insns).filter fun l => insns.length ≤ l := by
      refine List.mem_filter.2 ⟨List.mem_flatMap.2 ⟨i, member, target⟩, ?_⟩
      simpa using outside
    rw [List.min?_eq_none_iff] at inside
    simp [inside] at among
  · rw [whole, moved.effects]
    exact List.subset_append_left _ _

open Lift in
theorem Context.traced {ctx : Context} {table : Table} {f : Function}
    (lifted : (ctx.lift table).result = .ok f) : ∃ insns, ctx.Traced table f insns := by
  obtain ⟨insns, F, all, empty, rfl, targets, effects⟩ := positions_of_lift lifted
  have count := length_positions all
  refine ⟨insns, rfl, count, ?_, targets, ?_, ?_⟩
  · have fits := gives_positions ctx table _ 0 _ _ _ all
    intro i member
    obtain ⟨pc, inside, rfl⟩ := List.mem_iff_getElem.1 member
    obtain ⟨c, -, fit⟩ := fits.get (count ▸ inside) inside
    exact fit.anchors
  · intro pc i found
    obtain ⟨opcode, F₁, F₂, rest, -, here, next, one, later⟩ := position_at all found
    obtain ⟨step, terminal, named⟩ := step_of_position one
    exact ⟨opcode, F₁, F₂, named, here, next, step, terminal,
      List.Subset.trans (effects_positions later) effects⟩
  · have all' : Comes (positions ctx table 0 (ctx.code.opcodes.take insns.length)) .start insns
        F := by
      rwa [count, List.take_length]
    exact ⟨F, frameAt_of_comes all', empty⟩

theorem Context.Traced.entry {ctx : Context} {table : Table} {f : Function}
    {insns : List Instruction} (h : ctx.Traced table f insns) {e : Nat × Instruction}
    (member : e ∈ f.code.toList) : (∃ l, e.2 = .label l) ∨ insns[e.1]? = some e.2 := by
  have numbered := Chain.numbered_anchored insns
  have found := Chain.get?_of_mem member
  rw [h.code] at found
  rcases Nat.lt_or_ge e.1 insns.length with inside | outside
  · exact .inr ((numbered.early _ inside).symm.trans found)
  · have anchor := numbered.late _ _ outside found
    cases same : e.2 with
    | label l => exact .inl ⟨l, rfl⟩
    | _ => simp [same, Instruction.anchor?] at anchor

/-- Slots are numbered below the next number, and fall from the top of the stack on. -/
structure Frame.Ordered (f : Frame) : Prop where
  below : ∀ s ∈ f.stack, s.id < f.nextSlot
  falling : f.stack.Pairwise fun s t => t.id < s.id

namespace Lift.Moved

variable {f f' : Frame} {taken put : List Slot} {asked : List Effect}

theorem new (h : Moved f f' taken put asked) {s : Slot} (member : s ∈ put) :
    f.nextSlot ≤ s.id ∧ s.id < f'.nextSlot := by
  have numbered : s.id ∈ put.map Slot.id := List.mem_map_of_mem member
  rw [h.numbers, List.mem_range'_1] at numbered
  rw [h.next]
  exact numbered

theorem ordered (h : Moved f f' taken put asked) (before : f.Ordered) : f'.Ordered := by
  obtain ⟨kept, stack, stack'⟩ := h.stack
  have old : ∀ s ∈ kept, s.id < f.nextSlot := fun s member =>
    before.below s (by simp [stack, member])
  constructor
  · intro s member
    rw [stack', List.mem_append, List.mem_reverse] at member
    rcases member with pushed | left
    · exact (h.new pushed).2
    · rw [h.next]
      exact Nat.lt_add_right _ (old s left)
  · have falling := before.falling
    rw [stack, List.pairwise_append] at falling
    rw [stack', List.pairwise_append, List.pairwise_reverse]
    refine ⟨?_, falling.2.1, ?_⟩
    · rw [← List.pairwise_map (f := Slot.id) (R := (· < ·)), h.numbers]
      exact List.pairwise_lt_range'
    · intro s pushed t left
      exact Nat.lt_of_lt_of_le (old t left) (h.new (List.mem_reverse.1 pushed)).1

theorem old (h : Moved f f' taken put asked) {s : Slot} (member : s ∈ f'.stack)
    (early : s.id < f.nextSlot) : s ∈ f.stack := by
  obtain ⟨kept, stack, stack'⟩ := h.stack
  rw [stack', List.mem_append, List.mem_reverse] at member
  rcases member with pushed | left
  · exact absurd early (Nat.not_lt.2 (h.new pushed).1)
  · simp [stack, left]

theorem gone (h : Moved f f' taken put asked) (before : f.Ordered) {s t : Slot} (member : s ∈ taken)
    (later : t ∈ f'.stack) : t.id ≠ s.id := by
  obtain ⟨kept, stack, stack'⟩ := h.stack
  have falling := before.falling
  rw [stack, List.pairwise_append] at falling
  rw [stack', List.mem_append, List.mem_reverse] at later
  rcases later with pushed | left
  · have low := before.below s (by simp [stack, member])
    have high := (h.new pushed).1
    omega
  · exact Nat.ne_of_lt (falling.2.2 s member t left)

end Lift.Moved

namespace Lift.Step

variable {ctx : Context} {opcode : Opcode} {f f' : Frame} {i : Instruction}

theorem reads (h : Step ctx opcode f f' i) {v : Variable} (read : v ∈ i.reads)
    (onStack : v.isStack) : ∃ s ∈ f.stack, slotVariable ctx s = v ∧
      (f.Ordered → ∀ t ∈ f'.stack, t.id ≠ s.id) := by
  obtain ⟨taken, put, asked, moved, uses, -⟩ := h
  have among : v ∈ taken.map (slotVariable ctx) :=
    List.count_pos_iff.1 (Nat.lt_of_lt_of_le (List.count_pos_iff.2 read) (uses.reads v onStack))
  obtain ⟨s, member, rfl⟩ := List.mem_map.1 among
  obtain ⟨kept, stack, -⟩ := moved.stack
  exact ⟨s, by simp [stack, member], rfl, fun ordered t later => moved.gone ordered member later⟩

theorem held (h : Step ctx opcode f f' i) {s : Slot} (member : s ∈ f'.stack) :
    slotVariable ctx s ∈ i.writes ∨ s ∈ f.stack := by
  obtain ⟨taken, put, asked, moved, uses, -⟩ := h
  obtain ⟨kept, stack, stack'⟩ := moved.stack
  rw [stack', List.mem_append, List.mem_reverse] at member
  rcases member with pushed | left
  · have among : slotVariable ctx s ∈ i.writes.filter Variable.isStack := by
      rw [uses.writes]
      exact List.mem_map_of_mem pushed
    exact .inl (List.mem_filter.1 among).1
  · exact .inr (by simp [stack, left])

theorem next_le (h : Step ctx opcode f f' i) : f.nextSlot ≤ f'.nextSlot := by
  obtain ⟨_, _, _, moved, -, -⟩ := h
  rw [moved.next]
  exact Nat.le_add_right _ _

theorem fresh (h : Step ctx opcode f f' i) {s : Slot} (old : s.id < f.nextSlot) :
    slotVariable ctx s ∉ i.writes := by
  intro writes
  obtain ⟨taken, put, asked, moved, uses, -⟩ := h
  have among : slotVariable ctx s ∈ i.writes.filter Variable.isStack :=
    List.mem_filter.2 ⟨writes, rfl⟩
  rw [uses.writes] at among
  obtain ⟨t, pushed, same⟩ := List.mem_map.1 among
  have number : t.id = s.id := by
    simp only [slotVariable, Variable.stack.injEq] at same
    exact same.2.1
  have new := (moved.new pushed).1
  omega

end Lift.Step

namespace Context.Traced

variable {ctx : Context} {table : Table} {f : Function} {insns : List Instruction}

theorem frame (h : ctx.Traced table f insns) {pc : Nat} (inside : pc ≤ insns.length) :
    ∃ F, ctx.frameAt? table pc = some F ∧ F.Ordered := by
  induction pc with
  | zero => exact ⟨.start, rfl, by simp [Frame.start], by simp [Frame.start]⟩
  | succ pc ih =>
    obtain ⟨F, here, ordered⟩ := ih (Nat.le_of_succ_le inside)
    obtain ⟨_, F₁, F₂, -, from_here, to_next, ⟨_, _, _, moved, -, -⟩, -, -⟩ :=
      h.steps pc _ (List.getElem?_eq_getElem inside)
    obtain rfl : F = F₁ := Option.some.inj (here.symm.trans from_here)
    exact ⟨F₂, to_next, moved.ordered ordered⟩

theorem onward (h : ctx.Traced table f insns) {p q : Nat} (le : p ≤ q) (inside : q ≤ insns.length)
    {F G : Frame} (at_p : ctx.frameAt? table p = some F) (at_q : ctx.frameAt? table q = some G) :
    F.nextSlot ≤ G.nextSlot ∧ ∀ s ∈ G.stack, s.id < F.nextSlot → s ∈ F.stack := by
  induction le generalizing G with
  | refl =>
    obtain rfl : F = G := Option.some.inj (at_p.symm.trans at_q)
    exact ⟨Nat.le_refl _, fun s member _ => member⟩
  | @step q le ih =>
    obtain ⟨_, F₁, F₂, -, from_here, to_next, ⟨_, put, _, moved, -, -⟩, -, -⟩ :=
      h.steps q _ (List.getElem?_eq_getElem inside)
    obtain rfl : G = F₂ := Option.some.inj (at_q.symm.trans to_next)
    obtain ⟨grown, kept⟩ := ih (Nat.le_of_succ_le inside) from_here
    refine ⟨Nat.le_trans grown (moved.next ▸ Nat.le_add_right _ _), fun s member early => ?_⟩
    exact kept s (moved.old member (Nat.lt_of_lt_of_le early grown)) early

end Context.Traced

end ClientScript
