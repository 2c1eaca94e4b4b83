import ClientScript.Proofs.Flow.Refusal
import ClientScript.Proofs.Interpretation.Sources
import ClientScript.Proofs.Lift.Anchors

/-!
Labels of a lifted function. Main statement: without its labels the code is the translation of each
opcode in order; the labels are the targets of the jumps, each once and in order, and each stands
in front of the instruction of its position. So no script fails for a jump past its end, and only
those without a block graph are left whose last opcode decides something.
-/
namespace ClientScript

open Lift in
/-- What the opcode at a position is translated to, in the frame that the positions before come
    to. -/
def Context.translation? (ctx : Context) (table : Table) (pc : Nat) : Option Instruction := do
  let opcode ← ctx.code.opcodes[pc]?
  let c ← table.lookup? opcode
  let f ← ctx.frameAt? table pc
  ((command ctx opcode c).run.run { f with pc := pc }).1.toOption

namespace Instruction

def isLabel (i : Instruction) : Bool := i.anchor?.isSome

@[simp] theorem anchor?_label (l : Label) : (label l).anchor? = some l := rfl

@[simp] theorem isLabel_label (l : Label) : (label l).isLabel = true := rfl

theorem isLabel_of_anchor? {i : Instruction} (none : i.anchor? = none) : i.isLabel = false := by
  rw [isLabel, none, Option.isSome_none]

end Instruction

structure Context.Labels (ctx : Context) (table : Table) (f : Function) : Prop where
  plain : (f.code.instructions.filter (!·.isLabel)).map some =
    (List.range ctx.code.length).map (ctx.translation? table)
  count : f.opcodeCount = ctx.code.length
  ascending : f.labels.Pairwise (· < ·)
  targets : ∀ l, l ∈ f.labels ↔ ∃ i ∈ f.code.instructions, l ∈ i.targets
  offsets : ∀ l, l ∈ f.labels ↔
    ∃ pc c, table.commandAt? ctx.code pc = some c ∧ (l : Int) ∈ ctx.code.jumps pc c
  /-- As many instructions are in front of a label as it says, and right behind it the next. -/
  placed : ∀ (k : Nat) (l : Label), f.code.instructions[k]? = some (.label l) →
    (f.code.instructions.take k).countP (!·.isLabel) = l ∧
    ∃ i, f.code.instructions[k + 1]? = some i ∧ ctx.translation? table l = some i
  refused : (∃ e, FlowGraph.ofFunction f = .error e) ↔
    ∃ opcode c, ctx.code.opcodes.getLast? = some opcode ∧ table.lookup? opcode = some c ∧
      c.isDecision

namespace Lift

section

variable {targets : List Label} {is : List Instruction} (plain : ∀ i ∈ is, i.anchor? = none)

include plain

theorem filter_withLabels (pc : Nat) : (withLabels targets pc is).filter (!·.isLabel) = is := by
  induction is generalizing pc with
  | nil => rfl
  | cons i is ih =>
    have here := Instruction.isLabel_of_anchor? (plain i (by simp))
    have later := ih (fun j member => plain j (by simp [member])) (pc + 1)
    rw [withLabels]
    split <;> simp [later, here]

theorem labels_withLabels (pc : Nat) : (withLabels targets pc is).filterMap Instruction.anchor? =
    (List.range' pc is.length).filter (· ∈ targets) := by
  induction is generalizing pc with
  | nil => rfl
  | cons i is ih =>
    have here : i.anchor? = none := plain i (by simp)
    have later := ih (fun j member => plain j (by simp [member])) (pc + 1)
    rw [withLabels, List.length_cons, List.range'_succ]
    split <;> rename_i target <;> simp [later, here, target]

/-- Behind a label is the instruction of the position, and in front of it those before. -/
theorem placed_withLabels {pc k : Nat} {l : Label}
    (label : (withLabels targets pc is)[k]? = some (.label l)) :
    pc + ((withLabels targets pc is).take k).countP (!·.isLabel) = l ∧
      (withLabels targets pc is)[k + 1]? = is[l - pc]? := by
  induction is generalizing pc k with
  | nil => simp [withLabels] at label
  | cons i is ih =>
    have here := Instruction.isLabel_of_anchor? (plain i (by simp))
    have other : i ≠ .label l := by
      rintro rfl
      simp at here
    have later {j : Nat} (there : (withLabels targets (pc + 1) is)[j]? = some (.label l)) :
        pc + (((withLabels targets (pc + 1) is).take j).countP (!·.isLabel) + 1) = l ∧
          (withLabels targets (pc + 1) is)[j + 1]? = (i :: is)[l - pc]? := by
      obtain ⟨before, next⟩ := ih (fun j member => plain j (by simp [member])) there
      refine ⟨by omega, ?_⟩
      rw [next, List.getElem?_cons, if_neg (by omega), Nat.sub_sub]
    rw [withLabels] at label ⊢
    split at label <;> rename_i target
    · rcases k with _ | _ | j
      · obtain rfl : pc = l := by simpa using label
        simp [target]
      · exact absurd (by simpa using label) other
      · simpa [target, here] using later (by simpa using label)
    · rcases k with _ | j
      · exact absurd (by simpa using label) other
      · simpa [target, here] using later (by simpa using label)

omit plain in
theorem getLast?_withLabels (pc : Nat) : (withLabels targets pc is).getLast? = is.getLast? := by
  induction is generalizing pc with
  | nil => rfl
  | cons i is ih =>
    rw [withLabels, List.getLast?_append, List.getLast?_cons, List.getLast?_cons, ih]
    simp

end

variable {ctx : Context} {table : Table} {insns : List Instruction} {F : Frame} {pc : Nat}
  {i : Instruction} {l : Label}

theorem translated (all : Comes (positions ctx table 0 ctx.code.opcodes) .start insns F)
    (found : insns[pc]? = some i) : ctx.translation? table pc = some i ∧
      ∃ c, table.commandAt? ctx.code pc = some c ∧ Fits c i ∧ Jumps ctx pc c i := by
  obtain ⟨opcode, F₁, F₂, rest, at_pc, frame, -, one, -⟩ := position_at all found
  obtain ⟨c, named, made, -⟩ := comes_position one
  refine ⟨?_, c, ?_, gives_command ctx opcode c _ _ _ made, jumps_command made⟩
  · have ran : (command ctx opcode c).run.run { F₁ with pc := pc } = (.ok i, F₂) := made
    simp [Context.translation?, at_pc, named, frame, ran, Except.toOption]
  · rw [Table.commandAt?, at_pc, Option.bind_some, named]

theorem mem_jumpTargets (all : Comes (positions ctx table 0 ctx.code.opcodes) .start insns F) :
    l ∈ jumpTargets insns ↔
      ∃ pc c, table.commandAt? ctx.code pc = some c ∧ (l : Int) ∈ ctx.code.jumps pc c := by
  constructor
  · intro among
    obtain ⟨i, member, target⟩ := List.mem_flatMap.1 among
    obtain ⟨pc, found⟩ := List.mem_iff_getElem?.1 member
    obtain ⟨-, c, named, -, jumps⟩ := translated all found
    exact ⟨pc, c, named, jumps.offsets ▸ List.mem_map_of_mem target⟩
  · rintro ⟨pc, c, named, offset⟩
    obtain ⟨opcode, at_pc, -⟩ := Option.bind_eq_some_iff.1 named
    have short := (List.getElem?_eq_some_iff.1 at_pc).1
    rw [← length_positions all] at short
    obtain ⟨-, c', named', -, jumps⟩ := translated all (List.getElem?_eq_getElem short)
    obtain rfl : c = c' := Option.some.inj (named.symm.trans named')
    rw [← jumps.offsets] at offset
    obtain ⟨l', target, same⟩ := List.mem_map.1 offset
    obtain rfl := Int.ofNat.inj same
    exact List.mem_flatMap.2 ⟨_, List.getElem_mem short, target⟩

theorem length_anchored (insns : List Instruction) :
    (anchored insns).length = (anchored insns).instructions.length := by
  obtain ⟨number, holds⟩ := holds_anchored insns
  rw [holds.length, Chain.instructions, holds.toList_eq, List.length_map]

theorem exists_target_anchored :
    (∃ i ∈ (anchored insns).instructions, l ∈ i.targets) ↔ l ∈ jumpTargets insns := by
  rw [instructions_anchored, jumpTargets, List.mem_flatMap]
  constructor
  · rintro ⟨i, member, target⟩
    rcases mem_withLabels member with among | ⟨l', rfl⟩
    · exact ⟨i, among, target⟩
    · simp [Instruction.targets] at target
  · rintro ⟨i, among, target⟩
    exact ⟨i, mem_withLabels_of_mem among, target⟩

theorem mem_label {is : List Instruction} :
    l ∈ is.filterMap Instruction.anchor? ↔ .label l ∈ is := by
  rw [List.mem_filterMap]
  constructor
  · rintro ⟨i, member, same⟩
    cases i with
    | label l' =>
      obtain rfl := Option.some.inj same
      exact member
    | _ => simp [Instruction.anchor?] at same
  · exact fun member => ⟨_, member, rfl⟩

section

variable (all : Comes (positions ctx table 0 ctx.code.opcodes) .start insns F)

include all

theorem unlabelled (member : i ∈ insns) : i.anchor? = none := by
  obtain ⟨pc, found⟩ := List.mem_iff_getElem?.1 member
  obtain ⟨-, c, -, fits, -⟩ := translated all found
  exact fits.anchors

theorem labels_anchored : (anchored insns).instructions.filterMap Instruction.anchor? =
    (List.range ctx.code.length).filter (· ∈ jumpTargets insns) := by
  have count : insns.length = ctx.code.length := length_positions all
  rw [instructions_anchored, labels_withLabels fun _ member => unlabelled all member, count,
    List.range_eq_range']

theorem mem_labels_anchored :
    l ∈ (anchored insns).instructions.filterMap Instruction.anchor? ↔ l ∈ jumpTargets insns := by
  rw [labels_anchored all, List.mem_filter, List.mem_range, decide_eq_true_iff]
  exact and_iff_right_of_imp (inside_positions all l)

theorem filter_anchored : (anchored insns).instructions.filter (!·.isLabel) = insns := by
  rw [instructions_anchored]
  exact filter_withLabels (fun _ member => unlabelled all member) 0

theorem opcodeCount_anchored : (anchored insns).length -
    ((anchored insns).instructions.filterMap Instruction.anchor?).length = insns.length := by
  have parts := List.length_eq_length_filter_add (l := (anchored insns).instructions)
    Instruction.isLabel
  rw [filter_anchored all] at parts
  have labels : ((anchored insns).instructions.filterMap Instruction.anchor?).length =
      ((anchored insns).instructions.filter Instruction.isLabel).length := by
    rw [List.length_filterMap_eq_countP, List.countP_eq_length_filter]
    rfl
  rw [length_anchored, parts, labels, Nat.add_sub_cancel_left]

theorem ofFunction_anchored_error (arguments : List Variable) (returns : List StackType) :
    (∃ e, FlowGraph.ofFunction ⟨ctx.script, arguments, anchored insns, returns⟩ = .error e) ↔
      ∃ opcode c, ctx.code.opcodes.getLast? = some opcode ∧ table.lookup? opcode = some c ∧
        c.isDecision := by
  have found : ¬ ∃ i ∈ (anchored insns).instructions, ∃ l ∈ i.targets,
      .label l ∉ (anchored insns).instructions := by
    rintro ⟨i, member, l, target, missing⟩
    have among := exists_target_anchored.1 ⟨i, member, target⟩
    exact missing (mem_label.1 ((mem_labels_anchored all).2 among))
  have count : insns.length = ctx.code.opcodes.length := length_positions all
  rw [FlowGraph.ofFunction_error, or_iff_right found, instructions_anchored, getLast?_withLabels,
    List.getLast?_eq_getElem?, List.getLast?_eq_getElem?, count]
  constructor
  · rintro ⟨i, last, decides⟩
    obtain ⟨-, c, named, fits, -⟩ := translated all last
    obtain ⟨opcode, at_end, lookup⟩ := Option.bind_eq_some_iff.1 named
    exact ⟨opcode, c, at_end, lookup, fits.decides ▸ decides⟩
  · rintro ⟨opcode, c, at_end, lookup, decides⟩
    have short := (List.getElem?_eq_some_iff.1 at_end).1
    have last := List.getElem?_eq_getElem (by omega : ctx.code.opcodes.length - 1 < insns.length)
    obtain ⟨-, c', named, fits, -⟩ := translated all last
    rw [Table.commandAt?, at_end, Option.bind_some, lookup, Option.some.injEq] at named
    exact ⟨_, last, by rw [fits.decides, ← named]; exact decides⟩

end

end Lift

open Lift in
theorem Context.labels_of_lift {ctx : Context} {table : Table} {f : Function}
    (lifted : (ctx.lift table).result = .ok f) : ctx.Labels table f := by
  obtain ⟨insns, F, all, -, rfl, -⟩ := positions_of_lift lifted
  have size : insns.length = ctx.code.length := length_positions all
  constructor
  case plain =>
    rw [filter_anchored all]
    refine List.ext_getElem (by simp [size]) fun pc inside _ => ?_
    rw [List.length_map] at inside
    rw [List.getElem_map, List.getElem_map, List.getElem_range,
      (translated all (List.getElem?_eq_getElem inside)).1]
  case count => exact (opcodeCount_anchored all).trans size
  case ascending =>
    rw [Function.labels, labels_anchored all]
    exact List.pairwise_lt_range.filter _
  case targets =>
    exact fun l => (mem_labels_anchored all).trans exists_target_anchored.symm
  case offsets =>
    exact fun l => (mem_labels_anchored all).trans (mem_jumpTargets all)
  case placed =>
    intro k l label
    simp only [instructions_anchored] at label ⊢
    obtain ⟨before, next⟩ := placed_withLabels (fun _ member => unlabelled all member) label
    rw [Nat.zero_add] at before
    have member : l ∈ jumpTargets insns := by
      refine (mem_labels_anchored all).1 (mem_label.2 ?_)
      rw [instructions_anchored]
      exact List.mem_of_getElem? label
    have inside := size ▸ inside_positions all l member
    have found := List.getElem?_eq_getElem inside
    exact ⟨before, _, next.trans found, (translated all found).1⟩
  case refused => exact ofFunction_anchored_error all _ _

namespace Setting

/-- Whatever a run does, no script fails for a jump past its end; and the function that a script is
    interpreted to has each opcode's translation in order and, in front of those that jumps lead
    to, their labels. -/
theorem labels_complete {g : Setting} {s : Stores} (reached : g.Reached s) (id : Int32) :
    (∀ e, (g.interpret id s).1 = .error e →
      ∀ script l, e.innermost ≠ .malformed script (.jumpPastEnd l)) ∧
    ∀ f, (g.interpret id s).1 = .ok f →
      ∃ code, g.scripts.get? id = some code ∧ (g.context id code).Labels g.table f := by
  constructor
  · intro e failed script l
    exact (source_of_interpret reached failed).not_jumpPastEnd script l
  · intro f given
    obtain ⟨code, found, lifted⟩ := lifts_of_interpret reached given
    exact ⟨code, found, Context.labels_of_lift lifted⟩

end Setting

namespace Sample

/-- A switch that jumps back and on, a branch and a goto. -/
def turner : Script :=
  .ofLines [.pushInt 1, .switch [(1, 5), (2, 0)], .pushInt 2, .pushInt 3, .jump .branchEquals 7,
    .jump .branch 7, .op .ret (.int 0), .op .ret (.int 0)]

def turning : Setting :=
  .of ((IntMap.insert .empty 0 turner).insert 1
    (.ofLines [.pushInt 1, .pushInt 2, .jump .branchEquals 0])) .none .default

theorem turning_labels :
    (∃ f, (turning.interpret 0 .start).1 = .ok f ∧ f.labels = [0, 5, 7] ∧
      (turning.context 0 turner).Labels turning.table f ∧
      ¬ ∃ e, FlowGraph.ofFunction f = .error e) ∧
    ∃ f e, (turning.interpret 1 .start).1 = .ok f ∧ FlowGraph.ofFunction f = .error e := by
  have lists : (turning.interpret 0 .start).1.toOption.map Function.labels = some [0, 5, 7] := by
    decide +kernel
  have lists' : (turning.interpret 1 .start).1.toOption.map Function.labels = some [0] := by
    decide +kernel
  constructor
  · obtain ⟨-, complete⟩ := Setting.labels_complete (g := turning) .start 0
    obtain ⟨f, given, listed⟩ := Setting.exists_of_interpret lists
    obtain ⟨code, found, labels⟩ := complete f given
    obtain rfl : turner = code := Option.some.inj found
    refine ⟨f, given, listed, labels, fun failed => ?_⟩
    obtain ⟨opcode, c, last, named, decides⟩ := labels.refused.1 failed
    obtain rfl : Opcode.ret = opcode := Option.some.inj last
    obtain rfl : Command.ret = c := Option.some.inj named
    simp [Command.isDecision] at decides
  · obtain ⟨-, complete⟩ := Setting.labels_complete (g := turning) .start 1
    obtain ⟨f, given, -⟩ := Setting.exists_of_interpret lists'
    obtain ⟨code, found, labels⟩ := complete f given
    obtain rfl := Option.some.inj found
    obtain ⟨e, failed⟩ := labels.refused.2 ⟨.branchEquals, .branchCompare, rfl, rfl, rfl⟩
    exact ⟨f, e, given, failed⟩

end Sample

end ClientScript
