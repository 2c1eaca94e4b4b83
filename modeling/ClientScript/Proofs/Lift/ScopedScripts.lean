import ClientScript.Proofs.Lift.Jumps
import ClientScript.Proofs.Lift.ScopedCommands

/-!
Lookups and declarative commands ask only for what may follow, so whole scripts do. Main statement:
each effect of a script follows those before, a script that does not lift fails for a reason of its
own, which is no jump past its end, and if it lifts all type variables of its function are declared
in the end.
-/
namespace ClientScript

namespace Lift

variable {ctx : Context} {known : List TypeVar}

theorem keeps_typeTag (depth : Nat) : Keeps ctx known (typeTag ctx depth) nothing := by
  apply keeps_then (keeps_peekInt depth)
  intro tag
  simp only
  split
  · exact keeps_pure (List.nil_subset _)
  · exact keeps_defect _

theorem keeps_enumKey {key : Slot} (has : slotType ctx key ∈ known) :
    Keeps ctx known (enumKey ctx key) Expr.typeVars := by
  apply keeps_then (keeps_typeTag 0)
  intro keyType
  apply keeps_bind (keeps_pinned _)
  intro typing
  refine keeps_then (keeps_unify (by simp [has]) (by simp)) fun _ => ?_
  exact (keeps_popAs .typeTag).weaken (List.Subset.refl _) fun e => List.subset_append_left _ _

theorem keeps_enum (opcode : Opcode) : Keeps ctx known (enum ctx opcode) Instruction.typeVars := by
  apply keeps_bind (keeps_pop .int)
  intro key
  apply keeps_bind (keeps_popAs .enum)
  intro id
  apply keeps_then (keeps_typeTag 0)
  intro valueType
  apply keeps_bind (keeps_popAs .typeTag)
  intro valueTag
  refine keeps_bind (keeps_enumKey (by simp)) fun keyTag => ?_
  apply keeps_bind (keeps_pinned _)
  intro typing
  apply keeps_define
  · simp only [Expr.typeVarsAll, Expr.typeVars, slotExpr]
    grind
  · simp

theorem keeps_enumHasOutput (opcode : Opcode) :
    Keeps ctx known (enumHasOutput ctx opcode) Instruction.typeVars := by
  apply keeps_bind (keeps_pop .int)
  intro key
  apply keeps_bind (keeps_popAs .enum)
  intro id
  refine keeps_bind (keeps_enumKey (by simp)) fun keyTag => ?_
  apply keeps_bind (keeps_pinned _)
  intro typing
  apply keeps_define
  · simp only [Expr.typeVarsAll, Expr.typeVars, slotExpr]
    grind
  · simp

theorem keeps_param (opcode : Opcode) (receiver : Prototype) :
    Keeps ctx known (param ctx opcode receiver) Instruction.typeVars := by
  apply keeps_then (keeps_peekInt 0)
  intro id
  split
  · exact keeps_throw rfl
  · apply keeps_bind (keeps_popAs .param)
    intro key
    apply keeps_bind (keeps_popAs receiver)
    intro holder
    refine keeps_bind (keeps_pinned _) fun typing => keeps_define opcode _ ?_ (by simp)
    simp only [Expr.typeVarsAll]
    grind

theorem keeps_pinnedAll {α : Type} (prototype : α → Prototype) (ps : List α) :
    Keeps ctx known (ps.mapM fun p => pinned ctx (prototype p)) id := by
  have each : ∀ p, Keeps ctx [] (pinned ctx (prototype p)) fun t => [t] ++ [] :=
    fun p => keeps_pinned _
  refine (keeps_mapM each ps).weaken (List.Subset.refl _) fun ts => ?_
  simp

theorem keeps_dbGetField (opcode : Opcode) :
    Keeps ctx known (dbGetField ctx opcode) Instruction.typeVars := by
  apply keeps_then (keeps_peekInt 1)
  intro key
  split
  · exact keeps_throw rfl
  · apply keeps_bind (keeps_popAs .int)
    intro tuple
    apply keeps_bind (keeps_popAs .dbcolumn)
    intro column
    apply keeps_bind (keeps_popAs .dbrow)
    intro row
    apply keeps_bind (keeps_pinnedAll id _)
    intro typings
    apply keeps_bind (keeps_pushAll _)
    intro slots
    refine keeps_then (keeps_unifyAll_zip (by simp) (by simp)) fun _ => ?_
    apply keeps_pure
    simp only [Instruction.typeVars, Expr.typeVars, Expr.typeVarsAll, typeVarsAll_slots, id]
    grind

theorem keeps_array (index : Int32) :
    Keeps ctx known (array ctx index) fun e => e.typeVars ++ e.typings := by
  unfold array
  split
  · exact keeps_reference _
  · exact keeps_malformed rfl

theorem keeps_defineArray (opcode : Opcode) :
    Keeps ctx known (defineArray ctx opcode) Instruction.typeVars := by
  apply keeps_then keeps_intOperand
  intro packed
  apply keeps_bind (keeps_popAs .length)
  intro length
  apply keeps_bind (keeps_array _)
  intro elements
  simp only
  split
  · exact keeps_defect _
  · rename_i elementType
    refine keeps_then (keeps_forM fun t typing => ?_) fun _ => keeps_pure ?_
    · exact keeps_emit (fun es has => .freeze (has (by simp [typing])) _)
        (by simp [Effect.declares])
    · simp only [Instruction.typeVars, Expr.typeVars, Expr.typeVarsAll]
      grind

theorem keeps_pushArrayInt (opcode : Opcode) :
    Keeps ctx known (pushArrayInt ctx opcode) Instruction.typeVars := by
  apply keeps_bind (keeps_popAs .index)
  intro index
  apply keeps_then keeps_intOperand
  intro number
  apply keeps_bind (keeps_array _)
  intro elements
  apply keeps_bind (keeps_unpinned .int)
  intro typing
  refine keeps_then (keeps_forM fun t member => ?_) fun _ => keeps_define opcode _ ?_ (by simp)
  · exact keeps_unify (by simp [member]) (by simp)
  · simp only [Expr.typeVarsAll]
    grind

theorem keeps_popArrayInt (opcode : Opcode) :
    Keeps ctx known (popArrayInt ctx opcode) Instruction.typeVars := by
  apply keeps_bind (keeps_pop .int)
  intro value
  apply keeps_bind (keeps_popAs .index)
  intro index
  apply keeps_then keeps_intOperand
  intro number
  apply keeps_bind (keeps_array _)
  intro elements
  refine keeps_then (keeps_forM fun t member => ?_) fun _ => keeps_pure ?_
  · exact keeps_unify (by simp) (by simp [member])
  · simp only [Instruction.typeVars, Expr.typeVars, Expr.typeVarsAll, slotExpr]
    grind

def inputTypes (ctx : Context) (found : List (Prototype × Input)) : List TypeVar :=
  found.flatMap fun f => match f.2 with
    | .slot s => [slotType ctx s]
    | .operand | .localVar => []

theorem keeps_inputs (args : List (Prototype × Source)) :
    Keeps ctx known (inputs ctx args) (inputTypes ctx) := by
  induction args generalizing known with
  | nil => exact keeps_pure (List.nil_subset _)
  | cons arg rest ih =>
    obtain ⟨p, source⟩ := arg
    apply keeps_bind ih
    intro found
    cases source with
    | stack => exact keeps_bind (keeps_pop _) fun slot => keeps_pure (by simp [inputTypes])
    | operand | localVar => exact keeps_pure (by simp [inputTypes])

theorem keeps_operandLocal (type : StackType) :
    Keeps ctx known (operandLocal ctx type) nothing := by
  apply keeps_then keeps_intOperand
  intro index
  split
  · exact keeps_pure (List.nil_subset _)
  · exact keeps_defect _

theorem keeps_argument (operand : Value) (p : Prototype) {input : Input}
    (has : inputTypes ctx [(p, input)] ⊆ known) :
    Keeps ctx known (argument ctx operand p input) Expr.typeVars := by
  apply keeps_bind (keeps_pinned p)
  intro expected
  cases input with
  | slot s =>
    have slot : slotType ctx s ∈ known := has (by simp [inputTypes])
    refine keeps_then (keeps_unify (by simp [slot]) (by simp)) fun _ => ?_
    apply keeps_pure
    simp [slotExpr, Expr.typeVars, slot]
  | operand =>
    simp only
    split
    · exact keeps_pure (by simp [Expr.typeVars])
    · exact keeps_defect _
  | localVar =>
    apply keeps_then (keeps_operandLocal _)
    intro v
    apply keeps_bind (keeps_typed v)
    intro typing
    refine keeps_then (keeps_unify (by simp) (by simp)) fun _ => ?_
    apply keeps_pure
    simp [Expr.typeVars]

theorem keeps_arguments (operand : Value) {found : List (Prototype × Input)}
    (has : inputTypes ctx found ⊆ known) :
    Keeps ctx known (arguments ctx operand found) Expr.typeVarsAll := by
  induction found generalizing known with
  | nil => exact keeps_pure (List.nil_subset _)
  | cons f rest ih =>
    obtain ⟨p, input⟩ := f
    have split : inputTypes ctx ((p, input) :: rest) =
        inputTypes ctx [(p, input)] ++ inputTypes ctx rest := by
      simp [inputTypes]
    rw [split, List.append_subset] at has
    apply keeps_bind (keeps_argument operand p has.1)
    intro e
    apply keeps_bind (ih (List.Subset.trans has.2 (List.subset_append_right _ _)))
    intro es
    apply keeps_pure
    simp only [Expr.typeVarsAll]
    grind

theorem keeps_result (p : Prototype) (destination : Destination) :
    Keeps ctx known (result ctx p destination) fun r => [r.2] := by
  cases destination with
  | stack => exact keeps_bind (keeps_push _ _) fun slot => keeps_pure (by simp)
  | localVar =>
    exact keeps_then (keeps_operandLocal _) fun v => keeps_bind (keeps_typed v) fun typing =>
      keeps_pure (by simp)

theorem keeps_definitions (defs : List (Prototype × Destination)) :
    Keeps ctx known (results ctx defs) fun rs => rs.map Prod.snd := by
  induction defs generalizing known with
  | nil => exact keeps_pure (List.nil_subset _)
  | cons d rest ih =>
    apply keeps_bind (keeps_result d.1 d.2)
    intro r
    apply keeps_bind ih
    intro rs
    apply keeps_pure
    simp only [List.map_cons]
    grind

theorem keeps_basic (s : Signature) : Keeps ctx known (basic ctx s) Instruction.typeVars := by
  apply keeps_then keeps_operand
  intro value
  split
  · exact keeps_defect _
  · apply keeps_bind (keeps_inputs s.args)
    intro found
    refine keeps_bind (keeps_arguments value (by simp)) fun args => ?_
    apply keeps_bind (keeps_pinnedAll Prod.fst s.defs)
    intro typings
    apply keeps_bind (keeps_definitions s.defs)
    intro definitions
    refine keeps_then (keeps_unifyAll_zip (by simp) (by simp)) fun _ => ?_
    apply keeps_pure
    have vars : Expr.typeVarsAll (definitions.map fun d => .var d.1 d.2) =
        definitions.map Prod.snd := by
      rw [Expr.typeVarsAll_eq, List.flatMap_map, List.map_eq_flatMap]
      rfl
    simp only [Instruction.typeVars, Expr.typeVars, vars, id]
    grind

variable (own : ctx.scripts.get? ctx.script = some ctx.code)

include own

theorem keeps_command (opcode : Opcode) (c : Command) :
    Keeps ctx known (command ctx opcode c) Instruction.typeVars := by
  cases c with
  | switch => exact keeps_switch
  | goto => exact keeps_goto
  | branchCompare => exact keeps_branchCompare opcode
  | ret => exact keeps_ret own
  | proc => exact keeps_proc opcode
  | invoke => exact keeps_invoke opcode
  | enum => exact keeps_enum opcode
  | enumHasOutput => exact keeps_enumHasOutput opcode
  | defineArray => exact keeps_defineArray opcode
  | pushArrayInt => exact keeps_pushArrayInt opcode
  | popArrayInt => exact keeps_popArrayInt opcode
  | discard type => exact keeps_discard type
  | constant type => exact keeps_constant type
  | load storage => exact keeps_load storage
  | store storage => exact keeps_store storage
  | joinString => exact keeps_joinString
  | basic signature => exact keeps_basic signature
  | hook transmit => exact keeps_hook opcode transmit
  | param receiver => exact keeps_param opcode receiver
  | dbGetField => exact keeps_dbGetField opcode

theorem keeps_position (table : Table) (opcode : Opcode) :
    Keeps ctx known (position ctx table opcode) Instruction.typeVars := by
  unfold position
  split
  · exact keeps_then keeps_get fun _ => keeps_throw rfl
  · rename_i c found
    apply keeps_bind (keeps_command own opcode c)
    intro i
    apply keeps_then keeps_get
    intro f
    split
    · exact keeps_imbalance _
    · exact keeps_pure (List.subset_append_left _ _)

theorem keeps_positions (table : Table) (opcodes : List Opcode) (pc : Nat) :
    Keeps ctx known (positions ctx table pc opcodes) fun is => is.flatMap Instruction.typeVars := by
  induction opcodes generalizing pc known with
  | nil => exact keeps_pure (List.nil_subset _)
  | cons opcode rest ih =>
    have goOn : Keeps ctx known (modify fun f => { f with pc := pc }) nothing := by
      intro f r f' sound _ run
      cases run
      exact ⟨⟨⟨sound.ordered, sound.numbers, sound.slots⟩, List.Subset.refl _, List.nil_subset _⟩,
        by simp⟩
    apply keeps_then goOn
    intro _
    apply keeps_bind (keeps_position own table opcode)
    intro i
    apply keeps_bind (ih (pc + 1))
    intro is
    apply keeps_pure
    simp only [List.flatMap_cons]
    grind

omit own in
theorem typeVars_anchored (insns : List Instruction) :
    (anchored insns).instructions.flatMap Instruction.typeVars ⊆
      insns.flatMap Instruction.typeVars := by
  intro t member
  obtain ⟨i, inside, t_in⟩ := List.mem_flatMap.1 member
  obtain ⟨e, entry, rfl⟩ := List.mem_map.1 inside
  have numbered := Chain.numbered_anchored insns
  have found := Chain.get?_of_mem entry
  rcases Nat.lt_or_ge e.1 insns.length with early | late
  · rw [numbered.early _ early] at found
    exact List.mem_flatMap.2 ⟨e.2, List.mem_of_getElem? found, t_in⟩
  · have label := numbered.late _ _ late found
    cases shape : e.2 with
    | label l => simp [shape, Instruction.typeVars] at t_in
    | _ => simp [shape, Instruction.anchor?] at label

theorem keeps_function (table : Table) :
    Keeps ctx known (function ctx table) Function.typeVars := by
  unfold function
  have gives : Gives (positions ctx table 0 ctx.code.opcodes) fun insns =>
      insns.length = ctx.code.length ∧ ∀ l ∈ jumpTargets insns, l < ctx.code.length :=
    fun _ _ _ run => ⟨length_positions run, inside_positions run⟩
  apply keeps_bind_of gives (keeps_positions own table _ 0)
  rintro insns ⟨count, inside⟩
  apply keeps_then keeps_get
  intro f
  split
  · exact keeps_imbalance _
  · split
    · rename_i l past
      have among := List.mem_filter.1 (List.min?_mem past)
      have behind : insns.length ≤ l := of_decide_eq_true among.2
      exact absurd (inside l among.1) (Nat.not_lt.2 (count ▸ behind))
    · apply keeps_bind (keeps_typedAll _)
      intro ts
      apply keeps_pure
      have code := typeVars_anchored insns
      simp only [Function.typeVars]
      grind

end Lift

variable {ctx : Context}

theorem sound_start (ctx : Context) : Lift.Sound ctx .start :=
  ⟨scoped_nil ctx, by simp [declared, Frame.start], by simp [Frame.start]⟩

/-- What a script asks for, also if it fails on the way, and what its function names. -/
theorem Context.lift_scoped (own : ctx.scripts.get? ctx.script = some ctx.code) (table : Table) :
    Scoped ctx (ctx.lift table).effects ∧
      (∀ f, (ctx.lift table).result = .ok f → f.typeVars ⊆ declared (ctx.lift table).effects) ∧
      ∀ e, (ctx.lift table).result = .error e → e.isOwn := by
  unfold Context.lift
  rcases run : (Lift.function ctx table).run.run Frame.start with ⟨result, frame⟩
  obtain ⟨last, fails⟩ :=
    Lift.keeps_function own table _ _ _ (sound_start ctx) (List.nil_subset _) run
  refine ⟨last.sound.ordered, ?_, fails⟩
  rintro f rfl
  exact last.brings

end ClientScript
