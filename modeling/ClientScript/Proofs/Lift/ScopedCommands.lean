import ClientScript.Proofs.Lift.ScopedFrames

/-!
Moves, jumps, calls and hooks ask only for what may follow. The parameters and results of a callee
are declared by each caller, on the stacks that the corpus has them on.
-/
namespace ClientScript.Lift

variable {ctx : Context} {known : List TypeVar}

theorem keeps_constant (type : StackType) :
    Keeps ctx known (constant ctx type) Instruction.typeVars := by
  apply keeps_then keeps_operand
  intro value
  split
  · apply keeps_bind (keeps_unpinned type)
    intro typing
    apply keeps_bind (keeps_push type _)
    intro slot
    refine keeps_then (keeps_unify (by simp) (by simp)) fun _ => ?_
    apply keeps_pure
    simp [Instruction.typeVars, Expr.typeVarsAll, Expr.typeVars, slotExpr]
  · exact keeps_defect _

theorem keeps_stored (storage : Storage) : Keeps ctx known (stored ctx storage) nothing := by
  apply keeps_then keeps_intOperand
  intro index
  split
  · exact keeps_pure (List.nil_subset _)
  · exact keeps_malformed rfl

theorem keeps_load (storage : Storage) :
    Keeps ctx known (load ctx storage) Instruction.typeVars := by
  apply keeps_then (keeps_stored storage)
  intro v
  apply keeps_bind (keeps_typed v)
  intro typing
  apply keeps_bind (keeps_push _ none)
  intro slot
  refine keeps_then (keeps_unify (by simp) (by simp)) fun _ => ?_
  apply keeps_pure
  simp [Instruction.typeVars, Expr.typeVarsAll, Expr.typeVars, slotExpr]

theorem keeps_store (storage : Storage) :
    Keeps ctx known (store ctx storage) Instruction.typeVars := by
  apply keeps_then (keeps_stored storage)
  intro v
  apply keeps_bind (keeps_pop _)
  intro slot
  apply keeps_bind (keeps_typed v)
  intro typing
  refine keeps_then (keeps_unify (by simp) (by simp)) fun _ => ?_
  apply keeps_pure
  simp [Instruction.typeVars, Expr.typeVarsAll, Expr.typeVars, slotExpr]

theorem keeps_discard (type : StackType) :
    Keeps ctx known (discard ctx type) Instruction.typeVars :=
  keeps_bind (keeps_pop type) fun slot =>
    keeps_pure (by simp [Instruction.typeVars, Expr.typeVarsAll, Expr.typeVars, slotExpr])

theorem keeps_joinString : Keeps ctx known (joinString ctx) Instruction.typeVars := by
  apply keeps_then keeps_intOperand
  intro count
  split
  · exact keeps_malformed rfl
  · apply keeps_bind (keeps_popStrings _)
    intro parts
    apply keeps_bind (keeps_unpinned .string)
    intro typing
    apply keeps_define
    · rw [typeVarsAll_slots]
      grind
    · simp

theorem keeps_switchTable : Keeps ctx known (switchTable ctx) nothing := by
  apply keeps_then keeps_intOperand
  intro index
  simp only
  split
  · exact keeps_pure (List.nil_subset _)
  · exact keeps_defect _

theorem keeps_caseLabels (entries : List (Int32 × Int32)) :
    Keeps ctx known (caseLabels ctx entries) nothing := by
  induction entries with
  | nil => exact keeps_pure (List.nil_subset _)
  | cons entry rest ih =>
    exact keeps_then (keeps_jump _) fun _ => keeps_then ih fun _ => keeps_pure (List.nil_subset _)

theorem keeps_switch : Keeps ctx known (switch ctx) Instruction.typeVars := by
  apply keeps_bind (keeps_pop .int)
  intro slot
  apply keeps_then keeps_switchTable
  intro table
  apply keeps_then (keeps_caseLabels _)
  intro cases
  apply keeps_pure
  simp [Instruction.typeVars, Expr.typeVars, slotExpr]

theorem keeps_goto : Keeps ctx known (goto ctx) Instruction.typeVars :=
  keeps_then keeps_intOperand fun _ => keeps_then (keeps_jump _) fun _ =>
    keeps_pure (List.nil_subset _)

theorem keeps_branchCompare (opcode : Opcode) :
    Keeps ctx known (branchCompare ctx opcode) Instruction.typeVars := by
  apply keeps_then keeps_intOperand
  intro offset
  apply keeps_then (keeps_jump _)
  intro target
  apply keeps_bind (keeps_pop .int)
  intro right
  apply keeps_bind (keeps_pop .int)
  intro left
  refine keeps_then (keeps_unify (by simp) (by simp)) fun _ => ?_
  apply keeps_pure
  simp [Instruction.typeVars, Expr.typeVarsAll, Expr.typeVars, slotExpr]

theorem resultTypes_no_value (script : Int32) (types : List StackType) (owner : Int32) (n : Nat) :
    .ofValue owner n ∉ resultTypes script types := by
  simp [resultTypes]

theorem keeps_results {callee : Int32} {code : Script}
    (found : ctx.scripts.get? callee = some code) :
    Keeps ctx known (emit (.results callee code.returns)) fun _ =>
      resultTypes callee code.returns :=
  keeps_emit (fun _ _ => .results found) fun n => resultTypes_no_value callee code.returns _ n

theorem keeps_ret (own : ctx.scripts.get? ctx.script = some ctx.code) :
    Keeps ctx known (ret ctx) Instruction.typeVars := by
  apply keeps_bind keeps_popAll
  intro slots
  simp only
  split
  · rename_i same
    rw [same]
    apply keeps_bind (keeps_results own)
    intro _
    refine keeps_then (keeps_unifyAll_zip (by simp) ?_) fun _ => keeps_pure ?_
    · grind
    · rw [Instruction.typeVars, typeVarsAll_slots]
      grind
  · exact keeps_imbalance _

theorem gives_callee (id : Int32) :
    Gives (callee ctx id) fun code => ctx.scripts.get? id = some code := by
  unfold callee
  split
  · exact gives_throw _
  · rename_i code found
    exact gives_then fun _ => gives_pure found

theorem keeps_callee (id : Int32) : Keeps ctx known (callee ctx id) nothing := by
  unfold callee
  split
  · exact keeps_throw rfl
  · rename_i code found
    have known : (ctx.scripts.get? id).isSome := by rw [found]; rfl
    exact keeps_then (keeps_emit (fun _ _ => .enter known) (by simp [Effect.declares])) fun _ =>
      keeps_pure (List.nil_subset _)

theorem keeps_record (callee : Int32) (trigger : Trigger) :
    Keeps ctx known (emit (.record callee trigger)) nothing :=
  keeps_emit (fun _ _ => .record callee trigger) (by simp [Effect.declares])

theorem keeps_apply (opcode : Opcode) {id : Int32} {shape : Script} {before : List Expr}
    (found : ctx.scripts.get? id = some shape) (has : Expr.typeVarsAll before ⊆ known) :
    Keeps ctx known (apply ctx opcode id shape before) Instruction.typeVars := by
  apply keeps_bind (keeps_popMany _)
  intro popped
  simp only
  split
  · apply keeps_bind (keeps_typedAll _)
    intro parameters
    refine keeps_then (keeps_unifyAll_zip ?_ ?_) fun _ => ?_
    · grind
    · grind
    apply keeps_bind (keeps_results found)
    intro _
    apply keeps_bind (keeps_pushAll _)
    intro slots
    refine keeps_then (keeps_unifyAll_zip ?_ ?_) fun _ => keeps_pure ?_
    · grind
    · grind
    · simp only [Instruction.typeVars, Expr.typeVars, typeVarsAll_slots, Expr.typeVarsAll_append]
      grind
  · exact keeps_imbalance _

theorem keeps_proc (opcode : Opcode) : Keeps ctx known (proc ctx opcode) Instruction.typeVars := by
  apply keeps_then keeps_intOperand
  intro id
  apply keeps_bind_of (gives_callee id) (keeps_callee id)
  intro shape found
  exact keeps_then (keeps_record id .proc) fun _ => keeps_apply opcode found (List.nil_subset _)

theorem keeps_invoke (opcode : Opcode) :
    Keeps ctx known (invoke ctx opcode) Instruction.typeVars := by
  apply keeps_then keeps_intOperand
  intro id
  apply keeps_bind_of (gives_callee id) (keeps_callee id)
  intro shape found
  apply keeps_then (keeps_record id .clientScript)
  intro _
  apply keeps_bind (keeps_unpinned .int)
  intro typing
  apply keeps_apply opcode found
  simp [Expr.typeVarsAll, Expr.typeVars]

theorem keeps_pointer (v : Variable) : Keeps ctx known (pointer v) Expr.typeVars :=
  keeps_bind (keeps_typed v) fun _ => keeps_pure (by simp [Expr.typeVars])

theorem keeps_transmitted (transmit : Transmit) :
    Keeps ctx known (transmitted ctx transmit) Expr.typeVars := by
  cases transmit with
  | none => exact keeps_defect _
  | untyped =>
    exact keeps_bind (keeps_pop .int) fun slot => keeps_pure (by simp [slotExpr, Expr.typeVars])
  | stat | inv => exact keeps_popAs _
  | varp | varcInt | varcString => exact keeps_then keeps_popInt fun _ => keeps_pointer _

theorem keeps_transmitList (transmit : Transmit) (count : Nat) :
    Keeps ctx known (transmitList ctx transmit count) Expr.typeVarsAll := by
  induction count generalizing known with
  | zero => exact keeps_pure (List.nil_subset _)
  | succ n ih =>
    apply keeps_bind (keeps_transmitted transmit)
    intro last
    apply keeps_bind ih
    intro front
    apply keeps_pure
    simp only [Expr.typeVarsAll_append, Expr.typeVarsAll]
    grind

theorem keeps_describedTypes (descriptor : List Char) :
    Keeps ctx known (describedTypes ctx descriptor) nothing := by
  induction descriptor with
  | nil => exact keeps_pure (List.nil_subset _)
  | cons c rest ih =>
    unfold describedTypes
    split
    · exact keeps_defect _
    · exact keeps_then ih fun _ => keeps_pure (List.nil_subset _)

theorem keeps_handlerArguments (types : List ValueType) :
    Keeps ctx known (handlerArguments ctx types) Expr.typeVarsAll := by
  induction types generalizing known with
  | nil => exact keeps_pure (List.nil_subset _)
  | cons t rest ih =>
    apply keeps_bind ih
    intro after
    apply keeps_then (keeps_peek 0)
    intro top
    simp only
    apply keeps_bind (keeps_pop _)
    intro slot
    split
    · exact keeps_pure (by simp [Expr.typeVarsAll, Expr.typeVars])
    · apply keeps_pure
      simp only [Expr.typeVarsAll, Expr.typeVars, slotExpr]
      grind

theorem keeps_joinParameters {joins : List (Variable × ValueType × Expr)}
    (has : ∀ j ∈ joins, .ofVariable j.1 ∈ known ∧ j.2.2.typeVars ⊆ known) :
    Keeps ctx known (joinParameters joins) nothing := by
  induction joins with
  | nil => exact keeps_pure (List.nil_subset _)
  | cons j rest ih =>
    obtain ⟨parameter, described, argument⟩ := j
    obtain ⟨named, typed⟩ := has _ List.mem_cons_self
    have later : Keeps ctx known (joinParameters rest) nothing := ih fun j member =>
      has j (List.mem_cons_of_mem _ member)
    have freezes : Keeps ctx known (emit (.freeze (.ofVariable parameter) described)) nothing :=
      keeps_emit (fun _ more => .freeze (more named) described) (by simp [Effect.declares])
    apply keeps_then freezes
    intro _
    split
    · exact keeps_then (keeps_unify (typed (by simp [Expr.typeVars])) named) fun _ => later
    · exact later

theorem keeps_register (handler : Int32) (types : List ValueType) {args : List Expr}
    (has : Expr.typeVarsAll args ⊆ known) :
    Keeps ctx known (register handler types args) nothing := by
  unfold register
  split
  · apply keeps_bind (keeps_typedAll _)
    intro ts
    refine keeps_then (keeps_joinParameters ?_) fun _ => keeps_record handler .clientScript
    rintro ⟨parameter, described, argument⟩ join
    obtain ⟨parameters, others⟩ := List.of_mem_zip join
    obtain ⟨-, argued⟩ := List.of_mem_zip others
    rw [Expr.typeVarsAll_eq] at has
    constructor
    · grind
    · grind
  · exact keeps_pure (List.nil_subset _)

theorem keeps_hookTarget (opcode : Opcode) :
    Keeps ctx known (hookTarget ctx opcode) fun target => Expr.typeVarsOpt target.1 := by
  unfold hookTarget
  split
  · exact keeps_bind (keeps_popAs _) fun e => keeps_pure (by simp [Expr.typeVarsOpt])
  · exact keeps_then keeps_intOperand fun _ => keeps_pure (List.nil_subset _)

theorem keeps_hooked (opcode : Opcode) (descriptor : List Char) {triggers : List Expr}
    {component : Option Expr} (dot : Bool) (listed : Expr.typeVarsAll triggers ⊆ known)
    (target : Expr.typeVarsOpt component ⊆ known) :
    Keeps ctx known (do
      let types ← describedTypes ctx descriptor
      let args ← handlerArguments ctx types
      let handler ← popInt ctx
      register handler types args
      return .assign [] (.hook opcode handler args triggers dot component))
      Instruction.typeVars := by
  apply keeps_then (keeps_describedTypes _)
  intro types
  apply keeps_bind (keeps_handlerArguments types)
  intro args
  apply keeps_then keeps_popInt
  intro handler
  refine keeps_then (keeps_register handler types (by simp)) fun _ => ?_
  apply keeps_pure
  simp only [Instruction.typeVars, Expr.typeVarsAll, Expr.typeVars]
  grind

theorem keeps_hook (opcode : Opcode) (transmit : Transmit) :
    Keeps ctx known (hook ctx opcode transmit) Instruction.typeVars := by
  apply keeps_bind (keeps_hookTarget opcode)
  intro target
  apply keeps_then keeps_popText
  intro text
  simp only
  split
  · apply keeps_then keeps_popInt
    intro count
    apply keeps_bind (keeps_transmitList transmit _)
    intro gs
    exact keeps_hooked opcode _ _ (by simp) (by simp)
  · exact keeps_hooked opcode _ _ (List.nil_subset _) (by simp)

end ClientScript.Lift
