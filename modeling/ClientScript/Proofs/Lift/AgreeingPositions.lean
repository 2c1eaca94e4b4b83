import ClientScript.Proofs.Lift.AgreeingCommands
import ClientScript.Proofs.Lift.Anchors

/-!
The instructions of hooks and of declarative commands agree with what they ask for. The arguments of
a declarative command are pinned to its signature, wherever they come from but the operand. Main
statement: so do all instructions of a lifted function.
-/
namespace ClientScript

open Instruction

namespace Lift

variable {ctx : Context} {es : List Effect}

theorem yields_pointer (v : Variable) : Yields es (pointer v) Expr.Own :=
  yields_then (yields_typed v) fun _ => yields_pure (Expr.own_of_not_isVar rfl)

theorem yields_transmitted (transmit : Transmit) :
    Yields es (transmitted ctx transmit) Expr.Own := by
  cases transmit with
  | none => exact yields_defect _
  | untyped => exact yields_then (yields_pop .int) fun s => yields_pure (own_slotExpr s)
  | stat | inv => exact yields_popOwn _
  | varp | varcInt | varcString => exact yields_then yields_popInt fun _ => yields_pointer _

theorem yields_transmitList (transmit : Transmit) (count : Nat) :
    Yields es (transmitList ctx transmit count) (∀ e ∈ ·, e.Own) := by
  induction count with
  | zero => exact yields_pure (by simp)
  | succ count ih =>
    apply yields_bind (yields_transmitted transmit)
    intro last
    apply yields_bind ih
    intro before
    apply yields_pure
    intro own₁ own₂
    simpa [or_imp, forall_and] using ⟨own₁, own₂⟩

theorem yields_handlerArguments (types : List ValueType) :
    Yields es (handlerArguments ctx types) (∀ e ∈ ·, e.Own) := by
  induction types with
  | nil => exact yields_pure (by simp)
  | cons t types ih =>
    apply yields_bind ih
    intro after
    apply yields_then (yields_of_stays fun h => (comes_peek h).2)
    intro held
    apply yields_then (yields_pop _)
    intro slot
    split
    · exact yields_pure fun own => List.forall_mem_cons.2 ⟨Expr.own_of_not_isVar rfl, own⟩
    · exact yields_pure fun own => List.forall_mem_cons.2 ⟨own_slotExpr slot, own⟩

theorem yields_joinParameters (joins : List (Variable × ValueType × Expr)) :
    Yields es (joinParameters joins) fun _ => True := by
  induction joins with
  | nil => exact yields_pure trivial
  | cons join joins ih =>
    obtain ⟨parameter, described, argument⟩ := join
    apply yields_then (yields_emit _)
    intro _
    split
    · exact yields_then (yields_unify _ _) fun _ => ih
    · exact ih

theorem yields_register (handler : Int32) (types : List ValueType) (args : List Expr) :
    Yields es (register handler types args) fun _ => True := by
  unfold register
  split
  · apply yields_then (yields_mapM (fun v => yields_typed v) _)
    intro parameters
    apply yields_then (yields_joinParameters _)
    intro _
    exact (yields_emit _).imp fun _ _ => trivial
  · exact yields_pure trivial

theorem yields_hookTarget (opcode : Opcode) :
    Yields es (hookTarget ctx opcode) fun target => ∀ e ∈ target.1.toList, e.Own := by
  unfold hookTarget
  split
  · exact yields_bind (yields_popOwn .component) fun e => yields_pure fun own => by simpa using own
  · exact yields_then (yields_of_stays stays_intOperand) fun _ => yields_pure (by simp)

theorem yields_hook (opcode : Opcode) (transmit : Transmit) :
    Yields es (hook ctx opcode transmit) (·.Agrees es) := by
  apply yields_bind (yields_hookTarget opcode)
  intro target
  apply yields_then yields_popText
  intro text
  -- What is below the transmit list is the same with and without one.
  have rest : ∀ triggers : List Expr, Yields es (do
        let types ← describedTypes ctx (argumentMarks text)
        let args ← handlerArguments ctx types
        let handler ← popInt ctx
        register handler types args
        return .assign [] (.hook opcode handler args triggers target.2 target.1) :
          Lift Instruction) fun i =>
      (∀ e ∈ triggers, e.Own) → (∀ e ∈ target.1.toList, e.Own) → i.Agrees es := by
    intro triggers
    apply yields_then (yields_of_stays fun h => (comes_describedTypes h).2)
    intro types
    apply yields_bind (yields_handlerArguments types)
    intro args
    apply yields_then yields_popInt
    intro handler
    apply yields_then (yields_register handler types args)
    intro _
    apply yields_pure
    intro own₁ own₂ own₃
    exact agrees_assign nofun Expr.own_hook (List.forall_mem_append.2
      ⟨List.forall_mem_append.2 ⟨own₁, own₂⟩, own₃⟩) (.inl rfl)
  simp only
  split
  · rename_i listed
    apply yields_then yields_popInt
    intro count
    apply yields_bind (yields_transmitList transmit _)
    intro triggers
    simpa [argumentMarks, listed] using rest triggers
  · rename_i unlisted
    have none := (rest []).imp fun i agrees => agrees nofun
    simpa [argumentMarks, unlisted] using none

def Found (a : Prototype × Source) (b : Prototype × Input) : Prop :=
  b.1 = a.1 ∧ (b.2 = .operand → a.2 = .operand)

theorem yields_inputs (args : List (Prototype × Source)) :
    Yields es (inputs ctx args) (List.Forall₂ Found args) := by
  induction args with
  | nil => exact yields_pure .nil
  | cons arg args ih =>
    obtain ⟨p, source⟩ := arg
    apply yields_bind ih
    intro found
    cases source with
    | stack =>
      apply yields_then (yields_pop _)
      intro slot
      exact yields_pure fun later => .cons ⟨rfl, nofun⟩ later
    | operand => exact yields_pure fun later => .cons ⟨rfl, fun _ => rfl⟩ later
    | localVar => exact yields_pure fun later => .cons ⟨rfl, nofun⟩ later

theorem yields_operandLocal (type : StackType) :
    Yields es (operandLocal ctx type) (·.type = type) := by
  apply yields_then (yields_of_stays stays_intOperand)
  intro index
  split
  · exact yields_pure rfl
  · exact yields_defect _

theorem yields_argument (value : Value) (p : Prototype) (input : Input) :
    Yields es (argument ctx value p input) fun e =>
      e.Own ∧ (input ≠ .operand → Pinned es p e) := by
  apply yields_bind (yields_pinned p)
  intro expected
  cases input with
  | slot s =>
    apply yields_bind (yields_unify _ _)
    intro _
    exact yields_pure fun unified declared => ⟨own_slotExpr s, fun _ =>
      ⟨_, _, expected, rfl, unified, declared⟩⟩
  | operand =>
    simp only
    split
    · exact yields_pure fun _ => ⟨Expr.own_const, fun other => absurd rfl other⟩
    · exact yields_defect _
  | localVar =>
    apply yields_then (yields_operandLocal _)
    intro v
    apply yields_bind (yields_typed v)
    intro typing
    apply yields_bind (yields_unify _ _)
    intro _
    exact yields_pure fun unified own declared => ⟨Expr.own_var.2 own, fun _ =>
      ⟨_, _, expected, rfl, unified, declared⟩⟩

theorem yields_arguments (value : Value) (found : List (Prototype × Input)) :
    Yields es (arguments ctx value found) fun exprs => (∀ e ∈ exprs, e.Own) ∧
      ∀ args, List.Forall₂ Found args found →
        List.Forall₂ (fun a e => a.2 ≠ .operand → Pinned es a.1 e) args exprs := by
  induction found with
  | nil =>
    refine yields_pure ⟨by simp, fun args matched => ?_⟩
    cases matched
    exact .nil
  | cons input found ih =>
    apply yields_bind (yields_argument value input.1 input.2)
    intro e
    apply yields_bind ih
    intro exprs
    refine yields_pure fun later first => ⟨List.forall_mem_cons.2 ⟨first.1, later.1⟩, ?_⟩
    intro args matched
    cases matched with
    | cons here rest =>
      obtain ⟨same, taken⟩ := here
      exact .cons (fun other => same ▸ first.2 fun operand => other (taken operand))
        (later.2 _ rest)

theorem yields_result (p : Prototype) (destination : Destination) :
    Yields es (result ctx p destination) fun d => d.1.type = p.stack ∧ d.2 = .ofVariable d.1 := by
  cases destination with
  | stack =>
    apply yields_bind (yields_push _ none)
    intro slot
    exact yields_pure fun type => ⟨type, rfl⟩
  | localVar =>
    apply yields_bind (yields_operandLocal _)
    intro v
    apply yields_bind (yields_typed v)
    intro typing
    exact yields_pure fun own type => ⟨type, own⟩

theorem yields_results (defs : List (Prototype × Destination)) :
    Yields es (results ctx defs) fun ds => ds.map (·.1.type) = defs.map (·.1.stack) ∧
      ∀ d ∈ ds, d.2 = .ofVariable d.1 := by
  induction defs with
  | nil => exact yields_pure ⟨rfl, by simp⟩
  | cons d defs ih =>
    apply yields_bind (yields_result d.1 d.2)
    intro r
    apply yields_bind ih
    intro rs
    apply yields_pure
    rintro ⟨types, own⟩ ⟨type, here⟩
    exact ⟨by simp [type, types], List.forall_mem_cons.2 ⟨here, own⟩⟩

theorem yields_basic (s : Signature) :
    Yields es (basic ctx s) fun i => i.Agrees es ∧ i.Declared es s := by
  apply yields_then (yields_of_stays stays_operand)
  intro value
  split
  · exact yields_defect _
  · apply yields_bind (yields_inputs s.args)
    intro found
    apply yields_bind (yields_arguments value found)
    intro args
    apply yields_bind (yields_mapM (R := fun d t => .declare t d.1.stack [d.1.type] ∈ es)
      (fun d => yields_pinned d.1) s.defs)
    intro typings
    apply yields_bind (yields_results s.defs)
    intro ds
    apply yields_bind (yields_unifyAll _)
    intro _
    apply yields_pure
    rintro unified ⟨types, own⟩ declared ⟨owned, pinned⟩ matched
    have count := congrArg List.length types
    rw [List.length_map, List.length_map] at count
    refine ⟨agrees_assign ?_ Expr.own_op owned (.inr ?_), .intro _ _ _ (pinned s.args matched)⟩
    · exact List.forall_mem_map.2 fun d member => Expr.own_var.2 (own d member)
    · exact assigned_variables ds Prod.fst Prod.snd (declared.length_eq.symm.trans count.symm)
        unified types.symm

theorem yields_command (opcode : Opcode) (c : Command) :
    Yields es (command ctx opcode c) (·.Agrees es) := by
  cases c with
  | switch => exact yields_switch
  | goto => exact yields_goto
  | branchCompare => exact yields_branchCompare opcode
  | ret => exact yields_ret
  | proc => exact yields_proc opcode
  | invoke => exact yields_invoke opcode
  | enum => exact yields_enum opcode
  | enumHasOutput => exact yields_enumHasOutput opcode
  | defineArray => exact yields_defineArray opcode
  | pushArrayInt => exact yields_pushArrayInt opcode
  | popArrayInt => exact yields_popArrayInt opcode
  | discard type => exact yields_discard type
  | constant type => exact yields_constant type
  | load storage => exact yields_load storage
  | store storage => exact yields_store storage
  | joinString => exact yields_joinString
  | basic signature => exact (yields_basic signature).imp fun _ known => known.1
  | hook transmit => exact yields_hook opcode transmit
  | param receiver => exact yields_param opcode receiver
  | dbGetField => exact yields_dbGetField opcode

theorem agrees_position {table : Table} {opcode : Opcode} {f f' : Frame} {i : Instruction}
    (h : Comes (position ctx table opcode) f i f') (all : f'.effects ⊆ es) :
    i.Agrees es ∧ ∀ s, table.lookup? opcode = some (.basic s) → i.Declared es s := by
  obtain ⟨c, found, made, -⟩ := comes_position h
  refine ⟨(yields_command opcode c f i f' made).2 all, fun s declared => ?_⟩
  obtain rfl : c = .basic s := Option.some.inj (found.symm.trans declared)
  exact ((yields_basic s f i f' made).2 all).2

end Lift

open Lift in
/-- Each instruction of a lifted function agrees with what the script asks for, and those of
    declarative commands have what their signatures declare. -/
theorem Context.agrees_of_lift {ctx : Context} {table : Table} {f : Function}
    (lifted : (ctx.lift table).result = .ok f) :
    (∀ i ∈ f.code.instructions, i.Flat ∧ i.Agrees (ctx.lift table).effects) ∧
    ∀ pc s, table.commandAt? ctx.code pc = some (.basic s) →
      ∃ i, (pc, i) ∈ f.code.toList ∧ i.Declared (ctx.lift table).effects s := by
  obtain ⟨insns, F, all, -, rfl, -, effects⟩ := positions_of_lift lifted
  have each : ∀ pc i, insns[pc]? = some i → i.Flat ∧ i.Agrees (ctx.lift table).effects ∧
      ∀ s, table.commandAt? ctx.code pc = some (.basic s) →
        i.Declared (ctx.lift table).effects s := by
    intro pc i found
    obtain ⟨opcode, F₁, F₂, rest, at_pc, -, -, one, later⟩ := position_at all found
    obtain ⟨⟨_, _, _, -, uses, -⟩, -, -⟩ := step_of_position one
    obtain ⟨agrees, declared⟩ :=
      agrees_position one (List.Subset.trans (effects_positions later) effects)
    refine ⟨uses.flat, agrees, fun s command => declared s ?_⟩
    rwa [Table.commandAt?, at_pc] at command
  constructor
  · intro i member
    rw [instructions_anchored] at member
    rcases mem_withLabels member with position | ⟨l, rfl⟩
    · obtain ⟨pc, found⟩ := List.getElem?_of_mem position
      exact ⟨(each pc i found).1, (each pc i found).2.1⟩
    · exact ⟨flat_label l, agrees_label l⟩
  · intro pc s command
    have inside : pc < insns.length := by
      rw [length_positions all]
      by_contra outside
      rw [Table.commandAt?, List.getElem?_eq_none (Nat.le_of_not_lt outside)] at command
      simp at command
    have found := List.getElem?_eq_getElem inside
    obtain ⟨number, order⟩ := toList_anchored insns
    refine ⟨insns[pc], ?_, (each pc _ found).2.2 s command⟩
    rw [order]
    simpa using mem_labelled 0 found

end ClientScript
