import ClientScript.Proofs.Interpretation.Boundaries
import ClientScript.Proofs.Lift.Anchors

/-!
Stack slots are values that are used once. Main statement: in the order of the code, slots are
numbered as they are defined, each is defined by one assignment, and it is read by at most one later
instruction, in front of the next jump or return.
-/
namespace ClientScript

def Variable.slot? : Variable → Option Nat
  | .stack _ n _ => some n
  | _ => none

namespace Instruction

def slotsWritten (i : Instruction) : List Nat := i.writes.filterMap Variable.slot?

def slotsRead (i : Instruction) : List Nat := i.reads.filterMap Variable.slot?

end Instruction

/-- The slots of a function in the order of its code. -/
structure Function.Linear (f : Function) : Prop where
  numbered : ∃ count, f.code.instructions.flatMap Instruction.slotsWritten = List.range count
  defined : ∀ n ∈ f.code.instructions.flatMap Instruction.slotsWritten, ∃! p : Nat,
    ∃ definitions expression,
      f.code.instructions[p]? = some (Instruction.assign definitions expression) ∧
      n ∈ (Instruction.assign definitions expression).slotsWritten
  once : (f.code.instructions.flatMap Instruction.slotsRead).Nodup
  /-- What is read is defined further up, under the same stack type. -/
  later : ∀ (q : Nat) (i : Instruction), f.code.instructions[q]? = some i →
    ∀ v ∈ i.reads, v.isStack → ∃ (p : Nat) (j : Instruction), p < q ∧
      f.code.instructions[p]? = some j ∧ v ∈ j.writes ∧
      ∀ (r : Nat) (k : Instruction), p < r → r < q → f.code.instructions[r]? = some k →
        k.isTerminal = false

namespace Lift

inductive Steps (ctx : Context) : Frame → List Instruction → Frame → Prop
  | nil (f : Frame) : Steps ctx f [] f
  | label {f f' : Frame} {is : List Instruction} (l : Label) (rest : Steps ctx f is f') :
      Steps ctx f (.label l :: is) f'
  | step {opcode : Opcode} {f f₁ f' : Frame} {i : Instruction} {is : List Instruction}
      (one : Step ctx opcode f f₁ i) (empties : i.isTerminal = true → f₁.stack = [])
      (rest : Steps ctx f₁ is f') : Steps ctx f (i :: is) f'

variable {ctx : Context} {table : Table} {f f' : Frame} {insns is js : List Instruction}

theorem steps_withLabels {targets : List Label} {pc : Nat} {opcodes : List Opcode}
    (h : Comes (positions ctx table pc opcodes) f insns f') :
    Steps ctx f (withLabels targets pc insns) f' := by
  induction opcodes generalizing pc f insns with
  | nil =>
    obtain ⟨rfl, rfl⟩ := comes_pure.1 h
    exact .nil _
  | cons opcode opcodes ih =>
    obtain ⟨i, f₁, rest, one, later, rfl⟩ := comes_positions_cons.1 h
    obtain ⟨step, empties, -⟩ := step_of_position one
    have behind := Steps.step step empties (ih later)
    rw [withLabels]
    split
    · exact .label pc behind
    · exact behind

namespace Steps

theorem split (h : Steps ctx f (is ++ js) f') :
    ∃ middle, Steps ctx f is middle ∧ Steps ctx middle js f' := by
  induction is generalizing f with
  | nil => exact ⟨f, .nil f, h⟩
  | cons i is ih =>
    cases h with
    | label l rest =>
      obtain ⟨middle, first, second⟩ := ih rest
      exact ⟨middle, .label l first, second⟩
    | step one empties rest =>
      obtain ⟨middle, first, second⟩ := ih rest
      exact ⟨middle, .step one empties first, second⟩

theorem writes (h : Steps ctx f is f') : ∃ slots : List Slot,
    (is.flatMap Instruction.writes).filter Variable.isStack = slots.map (slotVariable ctx) ∧
    slots.map Slot.id = List.range' f.nextSlot slots.length ∧
    f'.nextSlot = f.nextSlot + slots.length := by
  induction h with
  | nil f => exact ⟨[], rfl, rfl, rfl⟩
  | label l rest ih => exact ih
  | step one empties rest ih =>
    obtain ⟨slots, written, numbers, next⟩ := ih
    obtain ⟨taken, put, asked, moved, uses, -⟩ := one
    refine ⟨put ++ slots, ?_, ?_, ?_⟩
    · rw [List.flatMap_cons, List.filter_append, uses.writes, written, List.map_append]
    · rw [List.map_append, moved.numbers, numbers, moved.next, List.range'_append_1,
        List.length_append]
    · rw [next, moved.next, List.length_append, Nat.add_assoc]

/-- A slot that is read or still there at the end was there before or is written, each time. -/
theorem balance (h : Steps ctx f is f') {v : Variable} (onStack : v.isStack) :
    (is.flatMap Instruction.reads).count v + (f'.stack.map (slotVariable ctx)).count v ≤
      (f.stack.map (slotVariable ctx)).count v + (is.flatMap Instruction.writes).count v := by
  induction h with
  | nil f => simp
  | label l rest ih => exact ih
  | @step _ f f₁ f' i is one empties rest ih =>
    obtain ⟨taken, put, asked, moved, uses, -⟩ := one
    obtain ⟨kept, stack, stack'⟩ := moved.stack
    have reads := uses.reads v onStack
    have written : i.writes.count v = (put.map (slotVariable ctx)).count v := by
      rw [← uses.writes, List.count_filter onStack]
    simp only [List.flatMap_cons, List.count_append, stack, stack', List.map_append,
      List.map_reverse, List.count_reverse] at ih ⊢
    omega

/-- What is on the stack in the end was there all the time, or was written behind the last jump or
    return. -/
theorem held (h : Steps ctx f is f') {s : Slot} (member : s ∈ f'.stack) :
    (s ∈ f.stack ∧ ∀ k ∈ is, k.isTerminal = false) ∨ ∃ xs j ys, is = xs ++ j :: ys ∧
      slotVariable ctx s ∈ j.writes ∧ ∀ k ∈ ys, k.isTerminal = false := by
  induction h with
  | nil f => exact .inl ⟨member, by simp⟩
  | label l rest ih =>
    rcases ih member with ⟨before, plain⟩ | ⟨xs, j, ys, rfl, written, plain⟩
    · exact .inl ⟨before, by simpa [Instruction.isTerminal] using plain⟩
    · exact .inr ⟨.label l :: xs, j, ys, rfl, written, plain⟩
  | @step _ f f₁ f' i is one empties rest ih =>
    rcases ih member with ⟨between, plain⟩ | ⟨xs, j, ys, rfl, written, plain⟩
    · -- The stack is not empty behind the first instruction.
      have quiet : i.isTerminal = false := by
        by_contra terminal
        rw [empties (by simpa using terminal)] at between
        simp at between
      rcases one.held between with written | before
      · exact .inr ⟨[], i, is, rfl, written, plain⟩
      · exact .inl ⟨before, by simpa [quiet] using plain⟩
    · exact .inr ⟨i :: xs, j, ys, rfl, written, plain⟩

theorem read {i : Instruction} (h : Steps ctx f (is ++ i :: js) f') {v : Variable}
    (reads : v ∈ i.reads) (onStack : v.isStack) :
    (∃ s ∈ f.stack, slotVariable ctx s = v) ∨ ∃ xs j ys, is = xs ++ j :: ys ∧
      v ∈ j.writes ∧ ∀ k ∈ ys, k.isTerminal = false := by
  obtain ⟨middle, first, second⟩ := h.split
  cases second with
  | label l rest => simp [Instruction.reads, Instruction.operands] at reads
  | step one empties rest =>
    obtain ⟨s, there, rfl, -⟩ := one.reads reads onStack
    rcases first.held there with ⟨before, -⟩ | written
    · exact .inl ⟨s, before, rfl⟩
    · exact .inr written

end Steps

end Lift

theorem Variable.filterMap_slot? (vs : List Variable) :
    (vs.filter Variable.isStack).filterMap Variable.slot? = vs.filterMap Variable.slot? := by
  rw [List.filterMap_filter]
  refine List.filterMap_congr fun v _ => ?_
  cases v <;> simp [Variable.slot?, Variable.isStack]

namespace Lift.Steps

variable {ctx : Context} {F : Frame} {is js : List Instruction}

theorem slotsWritten (h : Steps ctx .start is F) :
    is.flatMap Instruction.slotsWritten = List.range F.nextSlot := by
  obtain ⟨slots, written, numbers, next⟩ := h.writes
  have start : F.nextSlot = slots.length := by rw [next, Frame.start, Nat.zero_add]
  calc is.flatMap Instruction.slotsWritten
      = (is.flatMap Instruction.writes).filterMap Variable.slot? := by
        rw [List.filterMap_flatMap]
        rfl
    _ = (slots.map (slotVariable ctx)).filterMap Variable.slot? := by
        rw [← Variable.filterMap_slot?, written]
    _ = slots.map Slot.id := by
        rw [List.filterMap_map]
        exact congrFun (List.filterMap_eq_map (f := Slot.id)) slots
    _ = List.range F.nextSlot := by rw [numbers, start, List.range_eq_range']; rfl

theorem slotsRead_nodup (h : Steps ctx .start is F) :
    (is.flatMap Instruction.slotsRead).Nodup := by
  have among : ((is.flatMap Instruction.reads).filter Variable.isStack).Subperm
      ((is.flatMap Instruction.writes).filter Variable.isStack) := by
    refine List.subperm_ext_iff.2 fun v member => ?_
    have onStack := (List.mem_filter.1 member).2
    have balance := h.balance onStack
    rw [List.count_filter onStack, List.count_filter onStack]
    simp only [Frame.start, List.map_nil, List.count_nil] at balance
    omega
  have read : is.flatMap Instruction.slotsRead =
      ((is.flatMap Instruction.reads).filter Variable.isStack).filterMap Variable.slot? := by
    rw [Variable.filterMap_slot?, List.filterMap_flatMap]
    rfl
  have written : is.flatMap Instruction.slotsWritten =
      ((is.flatMap Instruction.writes).filter Variable.isStack).filterMap Variable.slot? := by
    rw [Variable.filterMap_slot?, List.filterMap_flatMap]
    rfl
  obtain ⟨vs, perm, sublist⟩ := among
  have numbers := sublist.filterMap Variable.slot?
  rw [← written, h.slotsWritten] at numbers
  rw [read]
  exact (perm.filterMap Variable.slot?).nodup_iff.1 (numbers.nodup List.nodup_range)

end Lift.Steps

theorem eq_of_nodup_flatMap {α β : Type} {g : α → List β} {xs : List α} {b : β}
    (once : (xs.flatMap g).Nodup) {p q : Nat} {x y : α} (at_p : xs[p]? = some x)
    (at_q : xs[q]? = some y) (in_x : b ∈ g x) (in_y : b ∈ g y) : p = q := by
  have apart := List.pairwise_iff_getElem.1 (List.nodup_flatMap.1 once).2
  obtain ⟨p_inside, rfl⟩ := List.getElem?_eq_some_iff.1 at_p
  obtain ⟨q_inside, rfl⟩ := List.getElem?_eq_some_iff.1 at_q
  rcases Nat.lt_trichotomy p q with before | same | behind
  · exact absurd in_y (apart p q p_inside q_inside before in_x)
  · exact same
  · exact absurd in_x (apart q p q_inside p_inside behind in_y)

theorem Instruction.assign_of_slotsWritten {i : Instruction} {n : Nat}
    (written : n ∈ i.slotsWritten) :
    ∃ definitions expression, i = .assign definitions expression := by
  cases i with
  | assign definitions expression => exact ⟨definitions, expression, rfl⟩
  | _ => simp [slotsWritten, writes, definitions] at written

theorem Function.linear_of_steps {f : Function} {ctx : Context} {F : Frame}
    (h : Lift.Steps ctx .start f.code.instructions F) : f.Linear where
  numbered := ⟨_, h.slotsWritten⟩
  defined := by
    intro n member
    obtain ⟨i, among, written⟩ := List.mem_flatMap.1 member
    obtain ⟨p, here⟩ := List.mem_iff_getElem?.1 among
    obtain ⟨ds, e, rfl⟩ := Instruction.assign_of_slotsWritten written
    refine ⟨p, ⟨ds, e, here, written⟩, ?_⟩
    rintro q ⟨ds', e', there, written'⟩
    exact eq_of_nodup_flatMap (h.slotsWritten ▸ List.nodup_range) there here written' written
  once := h.slotsRead_nodup
  later := by
    intro q i here v reads onStack
    have inside := (List.getElem?_eq_some_iff.1 here).1
    have split := List.take_append_drop q f.code.instructions
    rw [List.drop_eq_getElem_cons inside, (List.getElem_eq_iff inside).2 here] at split
    rw [← split] at h
    obtain ⟨s, there, -⟩ | ⟨xs, j, ys, before, written, plain⟩ := h.read reads onStack
    · simp [Frame.start] at there
    have early (r : Nat) (low : r < q) : f.code.instructions[r]? = (xs ++ j :: ys)[r]? := by
      rw [← before, List.getElem?_take_of_lt low]
    have size : xs.length + ys.length + 1 = q := by
      have sizes := congrArg List.length before
      rw [List.length_take_of_le (Nat.le_of_lt inside), List.length_append, List.length_cons]
        at sizes
      omega
    refine ⟨xs.length, j, by omega, ?_, written, fun r k above below at_r => ?_⟩
    · rw [early _ (by omega)]
      simp
    · rw [early r below, List.getElem?_append_right (Nat.le_of_lt above),
        List.getElem?_cons, if_neg (by omega)] at at_r
      exact plain k (List.mem_of_getElem? at_r)

namespace Setting

/-- Whatever a script is interpreted to, its slots are numbered as they are defined, each is defined
    by one assignment, and it is read at most once, by a later instruction that the code comes to
    without a jump or return. -/
theorem slots_linear {g : Setting} {s : Stores} {id : Int32} {f : Function}
    (reached : g.Reached s) (given : (g.interpret id s).1 = .ok f) : f.Linear := by
  obtain ⟨code, -, lifted⟩ := lifts_of_interpret reached given
  obtain ⟨insns, F, all, -, rfl, -⟩ := Context.positions_of_lift lifted
  have steps : Lift.Steps (g.context id code) .start (Lift.anchored insns).instructions F := by
    rw [Lift.instructions_anchored]
    exact Lift.steps_withLabels all
  exact Function.linear_of_steps steps

end Setting

namespace Sample

/-- A call and a hook take slots and drop some, among them the number of the handler. -/
theorem passing_linear : ∃ f, (passing.interpret 0 .start).1 = .ok f ∧ f.Linear ∧
    f.code.instructions.flatMap Instruction.slotsWritten = [0, 1, 2, 3, 4, 5, 6] ∧
    f.code.instructions.flatMap Instruction.slotsRead = [0, 1, 2, 4, 5] := by
  have shows : (passing.interpret 0 .start).1.toOption.map (fun f =>
      (f.code.instructions.flatMap Instruction.slotsWritten,
        f.code.instructions.flatMap Instruction.slotsRead)) =
      some ([0, 1, 2, 3, 4, 5, 6], [0, 1, 2, 4, 5]) := by decide +kernel
  obtain ⟨f, given, shown⟩ := Setting.exists_of_interpret shows
  obtain ⟨written, read⟩ := Prod.mk.inj shown
  exact ⟨f, given, Setting.slots_linear .start given, written, read⟩

end Sample

end ClientScript
