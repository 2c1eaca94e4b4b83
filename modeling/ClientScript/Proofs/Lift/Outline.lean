import ClientScript.Proofs.Lift.Anchors
import ClientScript.Proofs.Lift.Parts

/-!
Outlines. Without its operations, constants and type variables, what is left of an instruction is
its kind, where it jumps to, and the slots of the operand stack it writes and reads. Labels depend
on nothing else.
-/
namespace ClientScript

inductive Shape where
  | assign
  | branch (target : Label)
  | goto (target : Label)
  | switch (cases : IntMap Label)
  | ret
  | label (anchor : Label)

namespace Shape

def targets : Shape → List Label
  | .branch target | .goto target => [target]
  | .switch cases => cases.values
  | _ => []

def isTerminal : Shape → Bool
  | .branch _ | .goto _ | .switch _ | .ret => true
  | .assign | .label _ => false

end Shape

/-- The slots of the operand stack are listed as often as they are written or read. -/
structure Outline where
  shape : Shape
  writes : List Variable
  reads : List Variable

def Expr.slots (es : List Expr) : List Variable :=
  (es.filterMap Expr.location?).filter Variable.isStack

namespace Instruction

def shape : Instruction → Shape
  | .assign .. => .assign
  | .branch _ target => .branch target
  | .goto target => .goto target
  | .switch _ cases => .switch cases
  | .ret _ => .ret
  | .label anchor => .label anchor

def outline (i : Instruction) : Outline :=
  ⟨i.shape, i.writes.filter Variable.isStack, i.reads.filter Variable.isStack⟩

theorem targets_shape (i : Instruction) : i.shape.targets = i.targets := by
  cases i <;> rfl

theorem isTerminal_shape (i : Instruction) : i.shape.isTerminal = i.isTerminal := by
  cases i <;> rfl

variable {i j : Instruction}

theorem isTerminal_eq (same : i.outline = j.outline) : i.isTerminal = j.isTerminal := by
  have shapes : i.shape = j.shape := congrArg Outline.shape same
  rw [← isTerminal_shape, ← isTerminal_shape, shapes]

variable {opcode : Opcode} {definitions arguments : List Expr} {results : List StackType}
  {typings : List TypeVar} {dot : Bool} {e : Expr}

theorem reads_op (simple : ∀ a ∈ arguments, a.isSimple) :
    ((Expr.op opcode arguments results typings dot).parts.filterMap Expr.location?).filter
      Variable.isStack = Expr.slots arguments := by
  rw [Expr.parts_eq, Expr.inputs, Expr.partsAll_of_isSimple simple]
  rfl

theorem outline_op (simple : ∀ a ∈ arguments, a.isSimple) :
    (assign definitions (.op opcode arguments results typings dot)).outline =
      ⟨.assign, Expr.slots definitions, Expr.slots arguments⟩ := by
  rw [outline, ← reads_op simple, reads, operands, List.flatMap_singleton]
  rfl

theorem outline_assign (simple : e.isSimple) : (assign definitions e).outline =
    ⟨.assign, Expr.slots definitions, Expr.slots [e]⟩ := by
  rw [outline, reads, operands, List.flatMap_singleton, Expr.parts_eq,
    Expr.inputs_of_isSimple simple]
  rfl

end Instruction

namespace Lift

open Instruction

variable {is js : List Instruction}

theorem jumpTargets_eq (same : is.map outline = js.map outline) :
    jumpTargets is = jumpTargets js := by
  have shapes : ∀ is : List Instruction,
      jumpTargets is = (is.map outline).flatMap (·.shape.targets) := by
    intro is
    rw [jumpTargets, List.flatMap_map]
    exact List.flatMap_congr fun i _ => i.targets_shape.symm
  rw [shapes, shapes, same]

theorem outlines_withLabels (targets : List Label) (pc : Nat)
    (same : is.map outline = js.map outline) :
    (withLabels targets pc is).map outline = (withLabels targets pc js).map outline := by
  induction is generalizing js pc with
  | nil => rw [List.map_eq_nil_iff.1 same.symm]
  | cons i is ih =>
    obtain ⟨j, js, rfl, one, rest⟩ := List.map_eq_cons_iff.1 same.symm
    simp only [withLabels, List.map_append, List.map_cons, one, ih (pc + 1) rest.symm]

theorem outlines_anchored (same : is.map outline = js.map outline) :
    (anchored is).instructions.map outline = (anchored js).instructions.map outline := by
  rw [instructions_anchored, instructions_anchored, jumpTargets_eq same]
  exact outlines_withLabels _ 0 same

end Lift

end ClientScript
