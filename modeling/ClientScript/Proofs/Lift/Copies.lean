import ClientScript.Proofs.Lift.Numbers
import Mathlib.Data.List.Forall2

/-!
Which lifted instructions are copies, and which are jumps. Constants, loads and discards copy into
slots of the operand stack or nowhere; a store is a copy out of the stack; nothing else that is
lifted is a copy. Gotos, comparisons and switches alone jump, and only within their script. The
instruction of a script position keeps that position as its number, and all other instructions of
a lifted function are labels.
-/
namespace ClientScript

def Instruction.onlySlots : Instruction → Bool
  | .assign definitions _ => definitions.all fun
    | .var v _ => v.isStack
    | _ => false
  | _ => false

def Command.isStore : Command → Bool
  | .store _ => true
  | _ => false

def Command.isDecision : Command → Bool
  | .switch | .branchCompare => true
  | _ => false

def Command.isJump (c : Command) : Bool := c.isDecision || c matches .goto

namespace Lift

def Gives {α : Type} (m : Lift α) (Q : α → Prop) : Prop :=
  ∀ frame a frame', m.run.run frame = (.ok a, frame') → Q a

variable {α β : Type} {m : Lift α} {Q : α → Prop}

theorem gives_pure {a : α} (h : Q a) : Gives (pure a) Q := by
  intro frame a' frame' run
  obtain rfl : a = a' := Except.ok.inj (congrArg Prod.fst run)
  exact h

theorem gives_bind {k : α → Lift β} {R : β → Prop} (first : Gives m Q)
    (later : ∀ a, Q a → Gives (k a) R) : Gives (m >>= k) R := by
  intro frame b frame' run
  rcases first_run : m.run.run frame with ⟨result, middle⟩
  simp only [ExceptT.run_bind, StateT.run_bind, first_run] at run
  cases result with
  | error e =>
    have failed : Except.error e = Except.ok b := congrArg Prod.fst run
    simp at failed
  | ok a => exact later a (first frame a middle first_run) middle b frame' run

theorem gives_any (m : Lift α) : Gives m fun _ => True := fun _ _ _ _ => trivial

theorem gives_then {k : α → Lift β} {R : β → Prop} (later : ∀ a, Gives (k a) R) :
    Gives (m >>= k) R :=
  gives_bind (gives_any m) fun a _ => later a

theorem gives_throw (e : Failure) : Gives (throw e : Lift α) Q := by
  intro frame a frame' run
  have failed : Except.error e = Except.ok a := congrArg Prod.fst run
  simp at failed

variable (ctx : Context)

theorem gives_malformed (cause : Malformation) : Gives (malformed ctx cause : Lift α) Q :=
  gives_throw _

theorem gives_imbalance (cause : Imbalance) : Gives (imbalance ctx cause : Lift α) Q :=
  gives_then fun _ => gives_throw _

theorem gives_defect (d : Defect) : Gives (defect ctx d : Lift α) Q :=
  gives_then fun _ => gives_malformed ctx _

/-- An instruction as a command makes it, which is a copy out of the operand stack exactly if the
    command is a store, and jumps only if the command does. -/
structure Fits (c : Command) (i : Instruction) : Prop where
  stores : (i.isCopy && !i.onlySlots) = c.isStore
  anchors : i.anchor? = none
  decides : i.isDecision = c.isDecision
  targets : c.isJump = false → i.targets = []

section

variable {ctx}

theorem fits_computed {c : Command} {definitions : List Expr} {e : Expr} (other : c.isStore = false)
    (straight : c.isDecision = false) (computed : e.isAtom = false) :
    Fits c (.assign definitions e) :=
  ⟨by simp [Instruction.isCopy, computed, other], rfl, straight.symm, fun _ => rfl⟩

theorem fits_slots {c : Command} {e : Expr} (slots : List Slot) (other : c.isStore = false)
    (straight : c.isDecision = false) : Fits c (.assign (slots.map (slotExpr ctx)) e) :=
  ⟨by simp [Instruction.onlySlots, slotExpr, slotVariable, Variable.isStack, other], rfl,
    straight.symm, fun _ => rfl⟩

theorem gives_define {c : Command} (other : c.isStore = false) (straight : c.isDecision = false)
    (op : Opcode) (arguments : List Expr) (type : StackType) (typing : TypeVar) :
    Gives (define ctx op arguments type typing) (Fits c) :=
  gives_then fun _ => gives_then fun _ => gives_pure (fits_computed other straight rfl)

end

theorem gives_stored (storage : Storage) : Gives (stored ctx storage) (·.isStack = false) := by
  unfold stored
  refine gives_then fun operand => ?_
  cases member : storage.member? ctx.script operand with
  | none => exact gives_malformed ctx _
  | some v =>
    refine gives_pure ?_
    rcases Storage.member?_cases member with ⟨-, rfl⟩ | ⟨global, -⟩
    · rfl
    · cases v <;> simp [Variable.isGlobal, Variable.isStack] at global ⊢

theorem gives_constant (type : StackType) :
    Gives (constant ctx type) (Fits (.constant type)) := by
  unfold constant
  refine gives_then fun value => ?_
  split
  · refine gives_then fun typing => gives_then fun slot => gives_then fun _ => gives_pure ?_
    exact fits_slots [slot] rfl rfl
  · exact gives_defect ctx _

theorem gives_load (storage : Storage) :
    Gives (load ctx storage) (Fits (.load storage)) :=
  gives_then fun _ => gives_then fun _ => gives_then fun slot => gives_then fun _ =>
    gives_pure (fits_slots [slot] rfl rfl)

theorem gives_store (storage : Storage) :
    Gives (store ctx storage) (Fits (.store storage)) := by
  refine gives_bind (gives_stored ctx storage) fun v lasting => ?_
  refine gives_then fun slot => gives_then fun typing => gives_then fun _ => gives_pure ?_
  exact ⟨by simp [Instruction.isCopy, Instruction.onlySlots, Expr.isVar, Expr.isAtom, slotExpr,
    lasting, Command.isStore], rfl, rfl, fun _ => rfl⟩

theorem gives_apply {c : Command} (other : c.isStore = false) (straight : c.isDecision = false)
    (opcode : Opcode) (id : Int32) (shape : Script) (before : List Expr) :
    Gives (apply ctx opcode id shape before) (Fits c) := by
  unfold apply
  refine gives_then fun popped => ?_
  simp only
  split
  · refine gives_then fun _ => gives_then fun _ => gives_then fun _ => gives_then fun _ =>
      gives_then fun _ => gives_pure (fits_computed other straight rfl)
  · exact gives_imbalance ctx _

theorem gives_command (opcode : Opcode) (c : Command) :
    Gives (command ctx opcode c) (Fits c) := by
  cases c with
  | switch =>
    exact gives_then fun _ => gives_then fun _ => gives_then fun _ =>
      gives_pure ⟨rfl, rfl, rfl, nofun⟩
  | goto => exact gives_then fun _ => gives_then fun _ => gives_pure ⟨rfl, rfl, rfl, nofun⟩
  | branchCompare =>
    exact gives_then fun _ => gives_then fun _ => gives_then fun _ => gives_then fun _ =>
      gives_then fun _ => gives_pure ⟨rfl, rfl, rfl, nofun⟩
  | ret =>
    refine gives_then fun slots => ?_
    simp only
    split
    · exact gives_then fun _ => gives_then fun _ => gives_pure ⟨rfl, rfl, rfl, fun _ => rfl⟩
    · exact gives_imbalance ctx _
  | proc =>
    exact gives_then fun _ => gives_then fun _ => gives_then fun _ =>
      gives_apply ctx rfl rfl _ _ _ _
  | invoke =>
    exact gives_then fun _ => gives_then fun _ => gives_then fun _ => gives_then fun _ =>
      gives_apply ctx rfl rfl _ _ _ _
  | enum =>
    exact gives_then fun _ => gives_then fun _ => gives_then fun _ => gives_then fun _ =>
      gives_then fun _ => gives_then fun _ => gives_define rfl rfl _ _ _ _
  | enumHasOutput =>
    exact gives_then fun _ => gives_then fun _ => gives_then fun _ => gives_then fun _ =>
      gives_define rfl rfl _ _ _ _
  | defineArray =>
    refine gives_then fun packed => gives_then fun _ => gives_then fun _ => ?_
    simp only
    split
    · exact gives_defect ctx _
    · exact gives_then fun _ => gives_pure (fits_computed rfl rfl rfl)
  | pushArrayInt =>
    exact gives_then fun _ => gives_then fun _ => gives_then fun _ => gives_then fun _ =>
      gives_then fun _ => gives_define rfl rfl _ _ _ _
  | popArrayInt =>
    exact gives_then fun _ => gives_then fun _ => gives_then fun _ => gives_then fun _ =>
      gives_then fun _ => gives_pure (fits_computed rfl rfl rfl)
  | discard type =>
    exact gives_then fun slot => gives_pure ⟨rfl, rfl, rfl, fun _ => rfl⟩
  | constant type => exact gives_constant ctx type
  | load storage => exact gives_load ctx storage
  | store storage => exact gives_store ctx storage
  | joinString =>
    refine gives_then fun count => ?_
    split
    · exact gives_malformed ctx _
    · exact gives_then fun _ => gives_then fun _ => gives_define rfl rfl _ _ _ _
  | basic signature =>
    refine gives_then fun value => ?_
    split
    · exact gives_defect ctx _
    · exact gives_then fun _ => gives_then fun _ => gives_then fun _ => gives_then fun _ =>
        gives_then fun _ => gives_pure (fits_computed rfl rfl rfl)
  | hook transmit =>
    refine gives_then fun target => gives_then fun text => ?_
    simp only
    split
    · exact gives_then fun _ => gives_then fun _ => gives_then fun _ => gives_then fun _ =>
        gives_then fun _ => gives_then fun _ => gives_pure (fits_computed rfl rfl rfl)
    · exact gives_then fun _ => gives_then fun _ => gives_then fun _ => gives_then fun _ =>
        gives_then fun _ => gives_pure (fits_computed rfl rfl rfl)
  | param receiver =>
    refine gives_then fun id => ?_
    split
    · exact gives_throw _
    · exact gives_then fun _ => gives_then fun _ => gives_then fun _ => gives_define rfl rfl _ _ _ _
  | dbGetField =>
    refine gives_then fun id => ?_
    split
    · exact gives_throw _
    · exact gives_then fun _ => gives_then fun _ => gives_then fun _ => gives_then fun _ =>
        gives_then fun _ => gives_then fun _ => gives_pure (fits_computed rfl rfl rfl)

variable (table : Table)

def Made (opcode : Opcode) (i : Instruction) : Prop :=
  ∃ c, table.lookup? opcode = some c ∧ Fits c i

theorem gives_position (opcode : Opcode) :
    Gives (position ctx table opcode) (Made table opcode) := by
  unfold position
  split
  · exact gives_then fun _ => gives_throw _
  · rename_i c found
    refine gives_bind (gives_command ctx opcode c) fun i fits => gives_then fun f => ?_
    split
    · exact gives_imbalance ctx _
    · exact gives_pure ⟨c, found, fits⟩

theorem gives_positions (opcodes : List Opcode) :
    ∀ pc, Gives (positions ctx table pc opcodes) (List.Forall₂ (Made table) opcodes) := by
  induction opcodes with
  | nil => intro pc; exact gives_pure .nil
  | cons opcode rest ih =>
    intro pc
    refine gives_then fun _ => gives_bind (gives_position ctx table opcode) fun i made => ?_
    exact gives_bind (ih (pc + 1)) fun later fits => gives_pure (.cons made fits)

theorem gives_function : Gives (function ctx table) fun f => f.script = ctx.script ∧
    ∃ insns, List.Forall₂ (Made table) ctx.code.opcodes insns ∧ f.code = anchored insns := by
  unfold function
  refine gives_bind (gives_positions ctx table _ 0) fun insns made => gives_then fun f => ?_
  split
  · exact gives_imbalance ctx _
  · split
    · exact gives_malformed ctx _
    · exact gives_then fun _ => gives_pure ⟨rfl, insns, made, rfl⟩

end Lift

def Table.commandAt? (table : Table) (code : Script) (pc : Nat) : Option Command :=
  code.opcodes[pc]?.bind table.lookup?

/-- An instruction of a lifted function is a label, at no script position, or what the command at
    its script position makes. -/
theorem Context.lift_entry {ctx : Context} {table : Table} {f : Function}
    (lifted : (ctx.lift table).result = .ok f) {e : Nat × Instruction}
    (member : e ∈ f.code.toList) :
    (e.2.anchor?.isSome ∧ table.commandAt? ctx.code e.1 = none) ∨
      ∃ c, table.commandAt? ctx.code e.1 = some c ∧ Lift.Fits c e.2 := by
  unfold Context.lift at lifted
  rcases run : (Lift.function ctx table).run.run Frame.start with ⟨result, frame⟩
  rw [run] at lifted
  subst lifted
  obtain ⟨-, insns, made, code⟩ := Lift.gives_function ctx table _ _ _ run
  have numbered := Chain.numbered_anchored insns
  have found := Chain.get?_of_mem member
  rw [code] at found
  rcases Nat.lt_or_ge e.1 insns.length with inside | outside
  · have short : e.1 < ctx.code.opcodes.length := made.length_eq ▸ inside
    obtain ⟨c, at_e, fits⟩ := made.get short inside
    rw [numbered.early _ inside, List.getElem?_eq_getElem inside, Option.some.injEq] at found
    refine .inr ⟨c, ?_, ?_⟩
    · rw [Table.commandAt?, List.getElem?_eq_getElem short]
      exact at_e
    · exact found ▸ fits
  · refine .inl ⟨numbered.late _ _ outside found, ?_⟩
    rw [Table.commandAt?, List.getElem?_eq_none (made.length_eq ▸ outside)]
    rfl

end ClientScript
