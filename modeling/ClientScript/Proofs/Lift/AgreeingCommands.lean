import ClientScript.Proofs.Lift.Agreement

/-!
The instructions of moves, jumps, calls, lookups and arrays agree with what their commands ask for.
What is pushed is unified with what the expression gives, slot by slot.
-/
namespace ClientScript

open Instruction

namespace Lift

variable {ctx : Context} {es : List Effect}

@[simp]
theorem own_slotExpr (s : Slot) : (slotExpr ctx s).Own := Expr.own_var.2 rfl

theorem own_slots (slots : List Slot) : ∀ e ∈ slots.map (slotExpr ctx), e.Own := by
  simp

theorem assigned_variables {α : Type} (definitions : List α) (v : α → Variable) (t : α → TypeVar)
    {e : Expr} (count : e.typings.length = definitions.length)
    (unified : ∀ p ∈ (definitions.map t).zip e.typings, .unify p.1 p.2 ∈ es)
    (onStack : e.stackTypes = definitions.map fun d => (v d).type) :
    Assigned es (definitions.map fun d => .var (v d) (t d)) e := by
  constructor
  · rw [List.forall₂_map_left_iff, List.forall₂_iff_zip]
    refine ⟨count.symm, fun {d u} pair => ⟨v d, t d, rfl, unified (t d, u) ?_⟩⟩
    rw [List.zip_map_left]
    exact List.mem_map.2 ⟨(d, u), pair, rfl⟩
  · rw [onStack, List.forall₂_map_left_iff, List.forall₂_map_right_iff, List.forall₂_same]
    exact fun d _ => ⟨v d, t d, rfl, rfl⟩

theorem assigned_one {v : Variable} {t u : TypeVar} {e : Expr} (typing : e.typings = [u])
    (unified : .unify t u ∈ es) (onStack : e.stackTypes = [v.type]) :
    Assigned es [.var v t] e :=
  assigned_variables [()] (fun _ => v) (fun _ => t) (by simp [typing])
    (by simpa [typing] using unified) onStack

theorem assigned_slots {slots : List Slot} {e : Expr} (count : e.typings.length = slots.length)
    (unified : ∀ p ∈ (slots.map (slotType ctx)).zip e.typings, .unify p.1 p.2 ∈ es)
    (onStack : e.stackTypes = slots.map Slot.type) :
    Assigned es (slots.map (slotExpr ctx)) e :=
  assigned_variables slots (slotVariable ctx) (slotType ctx) count unified onStack

theorem yields_constant (type : StackType) :
    Yields es (constant ctx type) (·.Agrees es) := by
  apply yields_then (yields_of_stays stays_operand)
  intro value
  split
  · rename_i onStack
    apply yields_then (yields_nameless type [])
    intro typing
    apply yields_bind (yields_push type _)
    intro slot
    apply yields_bind (yields_unify _ _)
    intro _
    apply yields_pure
    intro unified pushed
    exact agrees_assign (own_slots [slot]) Expr.own_const nofun
      (.inr (assigned_one rfl unified (congrArg ([·]) (onStack.trans pushed.symm))))
  · exact yields_defect _

theorem yields_load (storage : Storage) : Yields es (load ctx storage) (·.Agrees es) := by
  apply yields_bind (yields_stored storage)
  intro v
  apply yields_bind (yields_typed v)
  intro typing
  apply yields_bind (yields_push _ none)
  intro slot
  apply yields_bind (yields_unify _ _)
  intro _
  apply yields_pure
  intro unified pushed own type
  exact agrees_assign (own_slots [slot]) (Expr.own_var.2 own) nofun
    (.inr (assigned_one rfl unified (congrArg ([·]) (type.trans pushed.symm))))

theorem yields_store (storage : Storage) : Yields es (store ctx storage) (·.Agrees es) := by
  apply yields_bind (yields_stored storage)
  intro v
  apply yields_bind (yields_pop _)
  intro slot
  apply yields_bind (yields_typed v)
  intro typing
  apply yields_bind (yields_unify _ _)
  intro _
  apply yields_pure
  intro unified own popped type
  exact agrees_assign (by simp [own]) (own_slotExpr slot) nofun
    (.inr (assigned_one rfl unified (congrArg ([·]) (popped.trans type.symm))))

theorem yields_discard (type : StackType) : Yields es (discard ctx type) (·.Agrees es) := by
  apply yields_then (yields_pop type)
  intro slot
  exact yields_pure (agrees_assign nofun (own_slotExpr slot) nofun (.inl rfl))

theorem yields_switch : Yields es (switch ctx) (·.Agrees es) := by
  apply yields_then (yields_pop .int)
  intro slot
  apply yields_then (yields_of_stays stays_switchTable)
  intro table
  apply yields_then (yields_of_stays stays_caseLabels)
  intro cases
  apply yields_pure
  have inputs : (slotExpr ctx slot).inputs = [] := rfl
  exact ⟨by simp [definitions, operands, inputs], trivial⟩

theorem yields_goto : Yields es (goto ctx) (·.Agrees es) := by
  apply yields_then (yields_of_stays stays_intOperand)
  intro offset
  apply yields_then (yields_of_stays stays_jump)
  intro target
  exact yields_pure ⟨by simp [definitions, operands], trivial⟩

theorem yields_branchCompare (opcode : Opcode) :
    Yields es (branchCompare ctx opcode) (·.Agrees es) := by
  apply yields_then (yields_of_stays stays_intOperand)
  intro offset
  apply yields_then (yields_of_stays stays_jump)
  intro target
  apply yields_then (yields_pop .int)
  intro right
  apply yields_then (yields_pop .int)
  intro left
  apply yields_bind (yields_unify _ _)
  intro _
  apply yields_pure
  intro unified
  exact ⟨by simp [definitions, operands, Expr.inputs], .intro opcode rfl rfl unified⟩

theorem yields_ret : Yields es (ret ctx) (·.Agrees es) := by
  apply yields_then yields_popAll
  intro slots
  simp only
  split
  · apply yields_then (yields_emit _)
    intro _
    apply yields_then (yields_unifyAll _)
    intro _
    apply yields_pure
    have inputs : ∀ s : Slot, (slotExpr ctx s).inputs = [] := fun _ => rfl
    refine ⟨?_, trivial⟩
    simp [definitions, operands, List.flatMap_map, inputs]
  · exact yields_imbalance _

theorem yields_callee (id : Int32) : Yields es (callee ctx id) fun _ => True := by
  unfold callee
  split
  · exact yields_throw _
  · exact yields_then (yields_emit _) fun _ => yields_pure trivial

theorem yields_apply (opcode : Opcode) (id : Int32) (shape : Script) {before : List Expr}
    (own : ∀ e ∈ before, e.Own) :
    Yields es (apply ctx opcode id shape before) (·.Agrees es) := by
  apply yields_then (yields_popMany _)
  intro popped
  simp only
  split
  · apply yields_then (yields_mapM (fun v => yields_typed v) _)
    intro parameters
    apply yields_then (yields_unifyAll _)
    intro _
    apply yields_then (yields_emit _)
    intro _
    apply yields_bind (yields_pushAll _)
    intro slots
    apply yields_bind (yields_unifyAll _)
    intro _
    apply yields_pure
    intro unified types
    have arguments : ∀ e ∈ before ++ popped.map (slotExpr ctx), e.Own :=
      List.forall_mem_append.2 ⟨own, own_slots popped⟩
    refine agrees_assign (own_slots slots) Expr.own_call arguments
      (.inr (assigned_slots ?_ unified types.symm))
    simp [Expr.typings, resultTypes, ← types]
  · exact yields_imbalance _

theorem yields_proc (opcode : Opcode) : Yields es (proc ctx opcode) (·.Agrees es) := by
  apply yields_then (yields_of_stays stays_intOperand)
  intro id
  apply yields_then (yields_callee id)
  intro shape
  apply yields_then (yields_emit _)
  intro _
  exact yields_apply opcode id shape (by simp)

theorem yields_invoke (opcode : Opcode) : Yields es (invoke ctx opcode) (·.Agrees es) := by
  apply yields_then (yields_of_stays stays_intOperand)
  intro id
  apply yields_then (yields_callee id)
  intro shape
  apply yields_then (yields_emit _)
  intro _
  apply yields_then (yields_nameless .int [])
  intro typing
  exact yields_apply opcode id shape (by simp)

theorem yields_define (opcode : Opcode) (arguments : List Expr) (type : StackType)
    (typing : TypeVar) : Yields es (define ctx opcode arguments type typing) fun i =>
      (∀ e ∈ arguments, e.Own) → i.Agrees es := by
  apply yields_bind (yields_push type none)
  intro slot
  apply yields_bind (yields_unify _ _)
  intro _
  apply yields_pure
  intro unified pushed own
  exact agrees_assign (own_slots [slot]) Expr.own_op own
    (.inr (assigned_one rfl unified (congrArg ([·]) pushed.symm)))

theorem yields_joinString : Yields es (joinString ctx) (·.Agrees es) := by
  apply yields_then (yields_of_stays stays_intOperand)
  intro count
  split
  · exact yields_malformed _
  · apply yields_then (yields_popStrings _)
    intro parts
    apply yields_then (yields_nameless .string [])
    intro typing
    exact (yields_define _ _ _ _).imp fun i agrees => agrees (own_slots parts)

theorem yields_popOwn (p : Prototype) : Yields es (popAs ctx p) Expr.Own :=
  (yields_popAs p).imp fun e popped => by
    obtain ⟨s, rfl, -⟩ := popped
    exact own_slotExpr s

theorem yields_enumKey (key : Slot) : Yields es (enumKey ctx key) Expr.Own := by
  apply yields_then (yields_of_stays stays_typeTag)
  intro keyType
  apply yields_then (yields_pinned _)
  intro typing
  apply yields_then (yields_unify _ _)
  intro _
  exact yields_popOwn _

theorem yields_enum (opcode : Opcode) : Yields es (enum ctx opcode) (·.Agrees es) := by
  apply yields_then (yields_pop .int)
  intro key
  apply yields_bind (yields_popOwn .enum)
  intro id
  apply yields_then (yields_of_stays stays_typeTag)
  intro valueType
  apply yields_bind (yields_popOwn .typeTag)
  intro valueTag
  apply yields_bind (yields_enumKey key)
  intro keyTag
  apply yields_then (yields_pinned _)
  intro typing
  refine (yields_define _ _ _ _).imp fun i agrees own₁ own₂ own₃ => agrees ?_
  simp [own₁, own₂, own₃]

theorem yields_enumHasOutput (opcode : Opcode) :
    Yields es (enumHasOutput ctx opcode) (·.Agrees es) := by
  apply yields_then (yields_pop .int)
  intro key
  apply yields_bind (yields_popOwn .enum)
  intro id
  apply yields_bind (yields_enumKey key)
  intro keyTag
  apply yields_then (yields_pinned _)
  intro typing
  refine (yields_define _ _ _ _).imp fun i agrees own₁ own₂ => agrees ?_
  simp [own₁, own₂]

theorem yields_param (opcode : Opcode) (receiver : Prototype) :
    Yields es (param ctx opcode receiver) (·.Agrees es) := by
  apply yields_then (yields_of_stays stays_peekInt)
  intro id
  split
  · exact yields_throw _
  · apply yields_bind (yields_popOwn .param)
    intro key
    apply yields_bind (yields_popOwn receiver)
    intro holder
    apply yields_then (yields_pinned _)
    intro typing
    refine (yields_define _ _ _ _).imp fun i agrees own₁ own₂ => agrees ?_
    simp [own₁, own₂]

theorem yields_dbGetField (opcode : Opcode) :
    Yields es (dbGetField ctx opcode) (·.Agrees es) := by
  apply yields_then (yields_of_stays stays_peekInt)
  intro id
  split
  · exact yields_throw _
  · rename_i fields _
    apply yields_bind (yields_popOwn .int)
    intro tuple
    apply yields_bind (yields_popOwn .dbcolumn)
    intro column
    apply yields_bind (yields_popOwn .dbrow)
    intro row
    apply yields_bind (yields_mapM (fun p => yields_pinned p) fields)
    intro typings
    apply yields_bind (yields_pushAll _)
    intro slots
    apply yields_bind (yields_unifyAll _)
    intro _
    apply yields_pure
    intro unified types declared own₁ own₂ own₃
    have count := congrArg List.length types
    rw [List.length_map, List.length_map] at count
    exact agrees_assign (own_slots slots) Expr.own_op (by simp [Expr.inputs, own₁, own₂, own₃])
      (.inr (assigned_slots (declared.length_eq.symm.trans count.symm) unified types.symm))

theorem yields_array (index : Int32) : Yields es (array ctx index) Expr.Own := by
  unfold array
  split
  · exact yields_bind (yields_typed _) fun t => yields_pure fun own => Expr.own_var.2 own
  · exact yields_malformed _

theorem yields_defineArray (opcode : Opcode) :
    Yields es (defineArray ctx opcode) (·.Agrees es) := by
  apply yields_then (yields_of_stays stays_intOperand)
  intro packed
  apply yields_bind (yields_popOwn .length)
  intro length
  apply yields_bind (yields_array _)
  intro elements
  simp only
  split
  · exact yields_defect _
  · apply yields_then (yields_forM fun t => yields_emit _)
    intro _
    apply yields_pure
    intro own₁ own₂
    exact agrees_assign nofun Expr.own_op (by simp [Expr.inputs, own₁, own₂]) (.inl rfl)

theorem yields_pushArrayInt (opcode : Opcode) :
    Yields es (pushArrayInt ctx opcode) (·.Agrees es) := by
  apply yields_bind (yields_popOwn .index)
  intro index
  apply yields_then (yields_of_stays stays_intOperand)
  intro number
  apply yields_bind (yields_array _)
  intro elements
  apply yields_then (yields_nameless .int [])
  intro typing
  apply yields_then (yields_forM fun t => yields_unify _ _)
  intro _
  refine (yields_define _ _ _ _).imp fun i agrees own₁ own₂ => agrees ?_
  simp [own₁, own₂]

theorem yields_popArrayInt (opcode : Opcode) :
    Yields es (popArrayInt ctx opcode) (·.Agrees es) := by
  apply yields_then (yields_pop .int)
  intro value
  apply yields_bind (yields_popOwn .index)
  intro index
  apply yields_then (yields_of_stays stays_intOperand)
  intro number
  apply yields_bind (yields_array _)
  intro elements
  apply yields_then (yields_forM fun t => yields_unify _ _)
  intro _
  apply yields_pure
  intro own₁ own₂
  exact agrees_assign nofun Expr.own_op (by simp [Expr.inputs, own₁, own₂]) (.inl rfl)

end Lift

end ClientScript
