import ClientScript.Proofs.Lift.PlainSignatures

/-!
Commands that move data, and plain signatures. Variables, locals, arrays and discards may be written
as signatures of plain prototypes, which take and give the same slots and say less of types.
-/
namespace ClientScript

def Storage.isLocal : Storage → Bool
  | .intLocal | .stringLocal => true
  | _ => false

namespace Command

/-- A command that moves data, written as a signature. A member of global storage is no more than
    the number that the operand is. -/
def plain? (opcode : Opcode) : Command → Option Signature
  | .load storage => some (if storage.isLocal
      then ⟨opcode, [(.plain storage.stack, .localVar)], [(.plain storage.stack, .stack)], false⟩
      else ⟨opcode, [(.int, .operand)], [(.plain storage.stack, .stack)], false⟩)
  | .store storage => some (if storage.isLocal
      then ⟨opcode, [(.plain storage.stack, .stack)], [(.plain storage.stack, .localVar)], false⟩
      else ⟨opcode, [(.int, .operand), (.plain storage.stack, .stack)], [], false⟩)
  | .discard type => some ⟨opcode, [(.plain type, .stack)], [], false⟩
  | .defineArray => some ⟨opcode, [(.length, .stack), (.int, .operand)], [], false⟩
  | .pushArrayInt =>
    some ⟨opcode, [(.index, .stack), (.int, .operand)], [(.int, .stack)], false⟩
  | .popArrayInt =>
    some ⟨opcode, [(.index, .stack), (.int, .stack), (.int, .operand)], [], false⟩
  | _ => none

end Command

namespace Lift

variable {ctx : Context} {names : Readings} {f f' : Frame} {i : Instruction} {opcode : Opcode}
variable {s : Signature}

section

variable {α β : Type} {m : Lift α}

def Still (m : Lift α) : Prop := ∀ f a f', Comes m f a f' → f'.pc = f.pc

theorem still_pure (a : α) : Still (pure a) := by
  intro f b f' h
  rw [(comes_pure.1 h).2]

theorem still_bind {k : α → Lift β} (first : Still m) (later : ∀ a, Still (k a)) :
    Still (m >>= k) := by
  intro f b f' h
  obtain ⟨a, f₁, one, rest⟩ := comes_bind.1 h
  rw [later a f₁ b f' rest, first f a f₁ one]

theorem still_of_not (never : ∀ {f a f'}, ¬ Comes m f a f') : Still m :=
  fun _ _ _ h => absurd h never

theorem still_of_stays (stays : ∀ {f a f'}, Comes m f a f' → f' = f) : Still m := by
  intro f a f' h
  rw [stays h]

theorem still_emit (e : Effect) : Still (emit e) := by
  intro f u f' h
  rw [comes_emit_iff.1 h]

theorem still_typed (v : Variable) : Still (typed v) :=
  still_bind (still_emit _) fun _ => still_pure _

theorem still_nameless (stack : StackType) (types : List ValueType) :
    Still (nameless ctx stack types) := by
  intro f t f' h
  rw [(comes_nameless_iff.1 h).2]

theorem still_push (type : StackType) (constant : Option Value) :
    Still (push ctx type constant) := by
  intro f s f' h
  rw [(comes_push_iff.1 h).2]

theorem still_pop (type : StackType) : Still (pop ctx type) := fun _ _ _ h => pc_pop h

theorem still_popAs (p : Prototype) : Still (popAs ctx p) :=
  still_bind (still_pop _) fun _ => still_bind (still_nameless _ _) fun _ =>
    still_bind (still_emit _) fun _ => still_pure _

theorem still_array (index : Int32) : Still (array ctx index) := by
  unfold array
  split
  · exact still_bind (still_typed _) fun _ => still_pure _
  · exact still_of_not not_comes_malformed

theorem still_forM {g : α → Effect} (as : List α) : Still (as.forM fun a => emit (g a)) := by
  induction as with
  | nil => exact still_pure _
  | cons a as ih => exact still_bind (still_emit _) fun _ => ih

theorem still_define (opcode : Opcode) (arguments : List Expr) (type : StackType) (t : TypeVar) :
    Still (define ctx opcode arguments type t) :=
  still_bind (still_push _ _) fun _ => still_bind (still_emit _) fun _ => still_pure _

end

theorem comes_stored {storage : Storage} {v : Variable} (h : Comes (stored ctx storage) f v f') :
    ∃ n, ctx.code.operands[f.pc]? = some (.int n) ∧ storage.member? ctx.script n = some v ∧
      f' = f := by
  obtain ⟨n, f₁, asked, next⟩ := comes_bind.1 h
  obtain ⟨operand, rfl⟩ := comes_intOperand_iff.1 asked
  split at next
  · rename_i v' member
    obtain ⟨rfl, rfl⟩ := comes_pure.1 next
    exact ⟨n, operand, member, rfl⟩
  · exact absurd next not_comes_malformed

theorem member?_of_isLocal {storage : Storage} {script n : Int32} {v : Variable}
    (here : storage.isLocal) (member : storage.member? script n = some v) :
    0 ≤ n.toInt ∧ v = .localVar script n.toInt.toNat storage.stack := by
  cases storage
  case intLocal | stringLocal =>
    obtain ⟨low, same⟩ := Option.ite_none_right_eq_some.1 member
    exact ⟨low, (Option.some.inj same).symm⟩
  all_goals simp [Storage.isLocal] at here

namespace Moved

variable {taken put : List Slot} {asked : List Effect}

theorem eq_slot {slot : Slot} (moved : Moved f f' taken [slot] asked) :
    slot = ⟨f.nextSlot, slot.type, slot.constant⟩ := by
  have number : slot.id = f.nextSlot := by simpa using moved.numbers
  rw [← number]

theorem grown (moved : Moved f f' taken put asked) : f.effects ⊆ f'.effects := by
  rw [moved.effects]
  exact List.subset_append_left ..

theorem mem_effects (moved : Moved f f' taken put asked) {e : Effect} (member : e ∈ asked) :
    e ∈ f'.effects := by
  rw [moved.effects]
  exact List.mem_append_right _ member

end Moved

theorem slots_other {v : Variable} (lasting : v.isStack = false) (t : TypeVar) (es : List Expr) :
    Expr.slots (.var v t :: es) = Expr.slots es := by
  rw [Expr.slots, List.filterMap_cons]
  exact List.filter_cons_of_neg (by simp [lasting])

theorem slots_map (slots : List Slot) :
    Expr.slots (slots.map (slotExpr ctx)) = slots.map (slotVariable ctx) := writes_slots slots

/-- A command did what a plain signature does: its arguments are the slots taken, the operand and
    the local that the operand numbers, and its results went where those of the signature go. -/
inductive Plainly (ctx : Context) (s : Signature) (f f' : Frame) (i : Instruction) : Prop where
  | intro (found : List (Prototype × Input)) (vs : List Variable) {value : Value}
      {kept : List Slot} {f₁ : Frame} (args : s.args = found.map fun a => (a.1, a.2.source))
      (plain : (∀ a ∈ found, a.1.IsPlain) ∧ ∀ d ∈ s.defs, d.1.IsPlain)
      (operand : ctx.code.operands[f.pc]? = some value) (free : s.usesOperand ∨ value = .int 0)
      (ready : ∀ a ∈ found, Ready ctx (ground f'.effects) value a.1 a.2)
      (stack : f.stack = (slotsOf found).reverse ++ kept)
      (land : LandAll ctx { f with stack := kept } s.defs vs f₁) (after : f'.stack = f₁.stack)
      (next : f'.nextSlot = f₁.nextSlot) (grown : f.effects ⊆ f'.effects)
      (typed : ∀ v ∈ vs, (ground f'.effects).typed (some (.ofVariable v)) v.type)
      (outline : i.outline = ⟨.assign, vs.filter Variable.isStack,
        (slotsOf found).map (slotVariable ctx)⟩) : Plainly ctx s f f' i

theorem Lands.pc_eq {p : Prototype} {destination : Destination} {v : Variable} {g : Frame}
    (lands : Lands ctx f p destination v g) : g.pc = f.pc := by
  cases lands <;> rfl

theorem LandAll.pc_eq {g : Frame} {defs : List (Prototype × Destination)} {vs : List Variable}
    (land : LandAll ctx f defs vs g) : g.pc = f.pc := by
  induction land with
  | nil => rfl
  | cons one _ ih => rw [ih, one.pc_eq]

theorem tracksFrom_of_plainly {m : Lift Instruction} (still : Still m)
    (did : ∀ i f', Comes m f i f' → Plainly ctx s f f' i) :
    TracksFrom ctx names f m (basic ctx s) Alike := by
  refine tracksFrom_of_serves fun i f' comes => ?_
  obtain ⟨_, _, args, plain, operand, free, ready, stack, land, after, next, grown, typed,
    outline⟩ := did i f' comes
  have serves : Serves ctx (ground f'.effects) names (basic ctx s) f _ _ :=
    serves_basic args plain operand free ready stack land typed
  exact ⟨grown, (serves.imp fun _ _ same => same.trans outline.symm).to
    ((still f i f' comes).trans land.pc_eq.symm) after next⟩

theorem still_load (storage : Storage) : Still (load ctx storage) :=
  still_bind (still_of_stays stays_stored) fun _ => still_bind (still_typed _) fun _ =>
    still_bind (still_push _ _) fun _ => still_bind (still_emit _) fun _ => still_pure _

theorem moved_load {storage : Storage} (h : Comes (load ctx storage) f i f') : ∃ v n asked,
    ctx.code.operands[f.pc]? = some (.int n) ∧ storage.member? ctx.script n = some v ∧
    i.outline = ⟨.assign, [slotVariable ctx ⟨f.nextSlot, storage.stack, none⟩], []⟩ ∧
    Moved f f' [] [⟨f.nextSlot, storage.stack, none⟩] asked ∧
    .declare (.ofVariable v) v.type [] ∈ asked ∧
    .declare (slotType ctx ⟨f.nextSlot, storage.stack, none⟩) storage.stack [] ∈ asked := by
  obtain ⟨v, f₁, named, h₁⟩ := comes_bind.1 h
  have lasting := gives_stored ctx storage _ _ _ named
  obtain ⟨n, operand, member, rfl⟩ := comes_stored named
  obtain ⟨t, f₂, declared, h₂⟩ := comes_bind.1 h₁
  obtain ⟨rfl, moved₁⟩ := moved_typed declared
  obtain ⟨slot, f₃, pushed, h₃⟩ := comes_bind.1 h₂
  obtain ⟨type, constant, moved₂⟩ := moved_push pushed
  obtain ⟨_, f₄, joined, h₄⟩ := comes_bind.1 h₃
  obtain ⟨rfl, rfl⟩ := comes_pure.1 h₄
  have moved := (moved₁.onward moved₂).onward (moved_unify joined)
  obtain rfl : slot = ⟨f₁.nextSlot, storage.stack, none⟩ :=
    moved.eq_slot.trans (by rw [type, constant])
  refine ⟨v, n, _, operand, member, ?_, moved, by simp, by simp⟩
  rw [Instruction.outline_assign rfl, slots_other lasting]
  rfl

theorem plainly_load {storage : Storage} {p : Prototype} (plain : p.IsPlain)
    (fit : p.stack = storage.stack) (h : Comes (load ctx storage) f i f') :
    Plainly ctx (if storage.isLocal then ⟨opcode, [(p, .localVar)], [(p, .stack)], false⟩
      else ⟨opcode, [(.int, .operand)], [(p, .stack)], false⟩) f f' i := by
  obtain ⟨v, n, asked, operand, member, outline, moved, var, slot⟩ := moved_load h
  obtain ⟨kept, before, after⟩ := moved.stack
  rw [← fit] at outline slot after
  have results : ∀ v ∈ [slotVariable ctx ⟨f.nextSlot, p.stack, none⟩],
      (ground f'.effects).typed (some (.ofVariable v)) v.type :=
    List.forall_mem_singleton.2 (typed_ground (moved.mem_effects slot))
  have own : ∀ d ∈ [(p, Destination.stack)], d.1.IsPlain := List.forall_mem_singleton.2 plain
  cases here : storage.isLocal with
  | true =>
    obtain ⟨low, rfl⟩ := member?_of_isLocal here member
    have known := typed_ground (moved.mem_effects var)
    rw [← fit] at known
    exact .intro [(p, .localVar)] _ rfl ⟨List.forall_mem_singleton.2 plain, own⟩ operand (.inl rfl)
      (List.forall_mem_singleton.2 ⟨n, rfl, low, known⟩) before (.cons .stack (.nil _)) after
      moved.next moved.grown results outline
  | false =>
    exact .intro [(.int, .operand)] _ rfl ⟨List.forall_mem_singleton.2 rfl, own⟩ operand (.inl rfl)
      (List.forall_mem_singleton.2 ⟨rfl, rfl⟩) before (.cons .stack (.nil _)) after
      moved.next moved.grown results outline

theorem still_store (storage : Storage) : Still (store ctx storage) :=
  still_bind (still_of_stays stays_stored) fun _ => still_bind (still_pop _) fun _ =>
    still_bind (still_typed _) fun _ => still_bind (still_emit _) fun _ => still_pure _

theorem moved_store {storage : Storage} (h : Comes (store ctx storage) f i f') :
    ∃ v n s asked, ctx.code.operands[f.pc]? = some (.int n) ∧
    storage.member? ctx.script n = some v ∧ s.type = storage.stack ∧
    i.outline = ⟨.assign, [], [slotVariable ctx s]⟩ ∧ Moved f f' [s] [] asked ∧
    .declare (.ofVariable v) v.type [] ∈ asked := by
  obtain ⟨v, f₁, named, h₁⟩ := comes_bind.1 h
  have lasting := gives_stored ctx storage _ _ _ named
  obtain ⟨n, operand, member, rfl⟩ := comes_stored named
  obtain ⟨s, f₂, popped, h₂⟩ := comes_bind.1 h₁
  obtain ⟨type, moved₁⟩ := moved_pop popped
  obtain ⟨t, f₃, declared, h₃⟩ := comes_bind.1 h₂
  obtain ⟨rfl, moved₂⟩ := moved_typed declared
  obtain ⟨_, f₄, joined, h₄⟩ := comes_bind.1 h₃
  obtain ⟨rfl, rfl⟩ := comes_pure.1 h₄
  have moved := (moved₁.onward moved₂).onward (moved_unify joined)
  refine ⟨v, n, s, _, operand, member, type, ?_, moved, by simp⟩
  rw [Instruction.outline_assign rfl, slots_other lasting]
  rfl

theorem plainly_store {storage : Storage} {p : Prototype} (plain : p.IsPlain)
    (fit : p.stack = storage.stack) (h : Comes (store ctx storage) f i f') :
    Plainly ctx (if storage.isLocal then ⟨opcode, [(p, .stack)], [(p, .localVar)], false⟩
      else ⟨opcode, [(.int, .operand), (p, .stack)], [], false⟩) f f' i := by
  obtain ⟨v, n, s, asked, operand, member, type, outline, moved, var⟩ := moved_store h
  obtain ⟨kept, before, after⟩ := moved.stack
  rw [← fit] at type
  cases here : storage.isLocal with
  | true =>
    obtain ⟨low, rfl⟩ := member?_of_isLocal here member
    have known := typed_ground (moved.mem_effects var)
    rw [← fit] at known
    exact .intro [(p, .slot s)] [.localVar ctx.script n.toInt.toNat p.stack] rfl
      ⟨List.forall_mem_singleton.2 plain, List.forall_mem_singleton.2 plain⟩ operand (.inl rfl)
      (List.forall_mem_singleton.2 type) before (.cons (.localVar operand low) (.nil _)) after
      moved.next moved.grown (List.forall_mem_singleton.2 known) outline
  | false =>
    exact .intro [(.int, .operand), (p, .slot s)] [] rfl
      ⟨List.forall_mem_cons.2 ⟨rfl, List.forall_mem_singleton.2 plain⟩, nofun⟩ operand (.inl rfl)
      (List.forall_mem_cons.2 ⟨⟨rfl, rfl⟩, List.forall_mem_singleton.2 type⟩) before (.nil _)
      after moved.next moved.grown nofun outline

theorem still_discard (type : StackType) : Still (discard ctx type) :=
  still_bind (still_pop _) fun _ => still_pure _

theorem plainly_discard {type : StackType} {p : Prototype} (plain : p.IsPlain)
    (fit : p.stack = type) (operand : ctx.code.operands[f.pc]? = some (.int 0))
    (h : Comes (discard ctx type) f i f') :
    Plainly ctx ⟨opcode, [(p, .stack)], [], false⟩ f f' i := by
  obtain ⟨s, f₁, popped, h₁⟩ := comes_bind.1 h
  obtain ⟨onStack, moved⟩ := moved_pop popped
  obtain ⟨rfl, rfl⟩ := comes_pure.1 h₁
  obtain ⟨kept, before, after⟩ := moved.stack
  exact .intro [(p, .slot s)] [] rfl ⟨List.forall_mem_singleton.2 plain, nofun⟩ operand (.inr rfl)
    (List.forall_mem_singleton.2 (onStack.trans fit.symm)) before (.nil _) after moved.next
    moved.grown nofun rfl

theorem outline_array {e : Expr} (named : ∃ v t, e = .var v t ∧ v.isStack = false)
    (put slots : List Slot) (results : List StackType) (typings : List TypeVar) :
    (Instruction.assign (put.map (slotExpr ctx))
      (.op opcode (e :: slots.map (slotExpr ctx)) results typings false)).outline =
      ⟨.assign, put.map (slotVariable ctx), slots.map (slotVariable ctx)⟩ := by
  obtain ⟨v, t, rfl, lasting⟩ := named
  have simple : ∀ a ∈ .var v t :: slots.map (slotExpr ctx), a.isSimple := by
    refine List.forall_mem_cons.2 ⟨rfl, fun a member => ?_⟩
    obtain ⟨s, -, rfl⟩ := List.mem_map.1 member
    rfl
  rw [Instruction.outline_op simple, slots_map, slots_other lasting, slots_map]

theorem still_defineArray : Still (defineArray ctx opcode) := by
  refine still_bind (still_of_stays stays_intOperand) fun _ => still_bind (still_popAs _) fun _ =>
    still_bind (still_array _) fun elements => ?_
  simp only
  split
  · exact still_of_not not_comes_defect
  · exact still_bind (still_forM _) fun _ => still_pure _

theorem plainly_defineArray (h : Comes (defineArray ctx opcode) f i f') :
    Plainly ctx ⟨opcode, [(.length, .stack), (.int, .operand)], [], false⟩ f f' i := by
  obtain ⟨n, f₁, number, h₁⟩ := comes_bind.1 h
  obtain ⟨operand, rfl⟩ := comes_intOperand_iff.1 number
  obtain ⟨_, f₂, popped, h₂⟩ := comes_bind.1 h₁
  obtain ⟨s, _, rfl, type, moved₁⟩ := moved_popAs popped
  obtain ⟨e, f₃, named, h₃⟩ := comes_bind.1 h₂
  obtain ⟨lasting, _, moved₂⟩ := moved_array named
  simp only at h₃
  split at h₃
  · exact absurd h₃ not_comes_defect
  obtain ⟨_, f₄, frozen, h₄⟩ := comes_bind.1 h₃
  obtain ⟨_, moved₃⟩ := moved_forM (fun one => ⟨_, moved_emit one⟩) frozen
  obtain ⟨rfl, rfl⟩ := comes_pure.1 h₄
  have moved := (moved₁.onward moved₂).onward moved₃
  obtain ⟨kept, before, after⟩ := moved.stack
  have outline : (Instruction.assign [] (.op opcode [e, slotExpr ctx s] [] [] false)).outline =
      ⟨.assign, [], [slotVariable ctx s]⟩ := outline_array lasting [] [s] [] []
  exact .intro [(.length, .slot s), (.int, .operand)] [] rfl
    ⟨List.forall_mem_cons.2 ⟨rfl, List.forall_mem_singleton.2 rfl⟩, nofun⟩ operand (.inl rfl)
    (List.forall_mem_cons.2 ⟨type, List.forall_mem_singleton.2 ⟨rfl, rfl⟩⟩) before (.nil _) after
    moved.next moved.grown nofun outline

theorem still_pushArrayInt : Still (pushArrayInt ctx opcode) :=
  still_bind (still_popAs _) fun _ => still_bind (still_of_stays stays_intOperand) fun _ =>
    still_bind (still_array _) fun _ => still_bind (still_nameless _ _) fun _ =>
      still_bind (still_forM _) fun _ => still_define _ _ _ _

theorem plainly_pushArrayInt (h : Comes (pushArrayInt ctx opcode) f i f') :
    Plainly ctx ⟨opcode, [(.index, .stack), (.int, .operand)], [(.int, .stack)], false⟩ f f' i := by
  obtain ⟨_, f₁, popped, h₁⟩ := comes_bind.1 h
  obtain ⟨s, _, rfl, type, moved₁⟩ := moved_popAs popped
  obtain ⟨n, f₂, number, h₂⟩ := comes_bind.1 h₁
  obtain ⟨operand, rfl⟩ := comes_intOperand_iff.1 number
  rw [still_popAs _ _ _ _ popped] at operand
  obtain ⟨e, f₃, named, h₃⟩ := comes_bind.1 h₂
  obtain ⟨lasting, _, moved₂⟩ := moved_array named
  obtain ⟨t, f₄, new, h₄⟩ := comes_bind.1 h₃
  obtain ⟨_, f₅, joined, h₅⟩ := comes_bind.1 h₄
  obtain ⟨_, moved₃⟩ := moved_forM (fun one => ⟨_, moved_unify one⟩) joined
  obtain ⟨slot, f₆, pushed, h₆⟩ := comes_bind.1 h₅
  obtain ⟨stack, constant, moved₄⟩ := moved_push pushed
  obtain ⟨_, f₇, matched, h₇⟩ := comes_bind.1 h₆
  obtain ⟨rfl, rfl⟩ := comes_pure.1 h₇
  have moved := ((((moved₁.onward moved₂).onward (moved_nameless new)).onward moved₃).onward
    moved₄).onward (moved_unify matched)
  obtain rfl : slot = ⟨f.nextSlot, .int, none⟩ := moved.eq_slot.trans (by rw [stack, constant])
  obtain ⟨kept, before, after⟩ := moved.stack
  have typed := typed_ground (moved₄.mem_effects (.head _))
  have grown := within_ground (moved_unify matched).grown
  exact .intro [(.index, .slot s), (.int, .operand)] _ rfl
    ⟨List.forall_mem_cons.2 ⟨rfl, List.forall_mem_singleton.2 rfl⟩,
      List.forall_mem_singleton.2 rfl⟩ operand (.inl rfl)
    (List.forall_mem_cons.2 ⟨type, List.forall_mem_singleton.2 ⟨rfl, rfl⟩⟩) before
    (.cons .stack (.nil _)) after moved.next moved.grown
    (List.forall_mem_singleton.2 (grown.typed _ _ typed)) (outline_array lasting [_] [s] _ _)

theorem still_popArrayInt : Still (popArrayInt ctx opcode) :=
  still_bind (still_pop _) fun _ => still_bind (still_popAs _) fun _ =>
    still_bind (still_of_stays stays_intOperand) fun _ => still_bind (still_array _) fun _ =>
      still_bind (still_forM _) fun _ => still_pure _

theorem plainly_popArrayInt (h : Comes (popArrayInt ctx opcode) f i f') :
    Plainly ctx ⟨opcode, [(.index, .stack), (.int, .stack), (.int, .operand)], [], false⟩
      f f' i := by
  obtain ⟨value, f₁, taken, h₁⟩ := comes_bind.1 h
  obtain ⟨type, moved₁⟩ := moved_pop taken
  obtain ⟨_, f₂, popped, h₂⟩ := comes_bind.1 h₁
  obtain ⟨s, _, rfl, type', moved₂⟩ := moved_popAs popped
  obtain ⟨n, f₃, number, h₃⟩ := comes_bind.1 h₂
  obtain ⟨operand, rfl⟩ := comes_intOperand_iff.1 number
  rw [still_popAs _ _ _ _ popped, pc_pop taken] at operand
  obtain ⟨e, f₄, named, h₄⟩ := comes_bind.1 h₃
  obtain ⟨lasting, _, moved₃⟩ := moved_array named
  obtain ⟨_, f₅, joined, h₅⟩ := comes_bind.1 h₄
  obtain ⟨_, moved₄⟩ := moved_forM (fun one => ⟨_, moved_unify one⟩) joined
  obtain ⟨rfl, rfl⟩ := comes_pure.1 h₅
  have moved := ((moved₁.trans moved₂).onward moved₃).onward moved₄
  obtain ⟨kept, before, after⟩ := moved.stack
  exact .intro [(.index, .slot s), (.int, .slot value), (.int, .operand)] [] rfl
    ⟨List.forall_mem_cons.2 ⟨rfl, List.forall_mem_cons.2 ⟨rfl, List.forall_mem_singleton.2 rfl⟩⟩,
      nofun⟩ operand (.inl rfl)
    (List.forall_mem_cons.2 ⟨type', List.forall_mem_cons.2 ⟨type,
      List.forall_mem_singleton.2 ⟨rfl, rfl⟩⟩⟩) before (.nil _) after moved.next moved.grown nofun
    (outline_array lasting [] [s, value] _ _)

end Lift

end ClientScript
