import ClientScript.Proofs.Lift.Copies
import ClientScript.Proofs.Lift.Parts

/-!
Steps of a lift. Each command takes what its instruction reads off the operand stack and puts there
what the instruction writes. The commands that stay within their script are here.
-/
namespace ClientScript

/-- The characters of a descriptor that stand for arguments: all but the mark of a transmit list. -/
def argumentMarks (text : String) : List Char :=
  if text.toList.getLast? == some 'Y' then text.toList.dropLast else text.toList

namespace Lift

variable (ctx : Context)

structure CallAsks (asked : List Effect) (definitions : List Expr) (callee : Int32)
    (arguments : List Expr) (results : List StackType) (typings : List TypeVar) : Prop where
  enters : .enter callee ∈ asked
  shape : ∃ shape, ctx.scripts.get? callee = some shape ∧ results = shape.returns ∧
    ∀ stack, (Expr.typingsOn stack arguments).length = shape.arguments.count stack
  arguments : ∀ (stack : StackType) (n : Nat) (t : TypeVar),
    (Expr.typingsOn stack arguments)[n]? = some t →
      .unify (.ofVariable (.localVar callee n stack)) t ∈ asked
  definitions : List.Forall₂ (fun d u => ∃ v t, d = .var v t ∧ .unify t u ∈ asked)
    definitions typings
  typings : typings = resultTypes callee results

structure ReturnAsks (asked : List Effect) (values : List Expr) : Prop where
  count : values.length = ctx.code.returns.length
  values : ∀ i (inside : i < values.length), ∃ v t, values[i] = .var v t ∧
    .unify (.ofResult ctx.script i) t ∈ asked

/-- The arguments of a hook have the types that its descriptor gives; unless the hook is cleared,
    they agree with the parameters of the handler, which are pinned to these types. -/
structure HookAsks (stack : List Slot) (asked : List Effect) (opcode : Opcode) (handler : Int32)
    (arguments : List Expr) (types : List ValueType) : Prop where
  descriptor : ∃ text,
    stack[if Opcode.ifSetOnClick ≤ opcode then 1 else 0]?.bind Slot.constant = some (.str text) ∧
      (argumentMarks text).mapM ValueType.ofDescriptor? = some types
  count : arguments.length = types.length
  parameters : 0 ≤ handler.toInt → ∀ i t, types[i]? = some t → ∃ p,
    p = Variable.localVar handler (((types.map ValueType.stack).take i).count t.stack) t.stack ∧
      .freeze (.ofVariable p) t ∈ asked ∧
      ∀ v u, arguments[i]? = some (.var v u) → .unify u (.ofVariable p) ∈ asked

/-- What the instructions that reach other scripts ask for. A test is named by its opcode. -/
def Asks (opcode : Opcode) (stack : List Slot) (asked : List Effect) : Instruction → Prop
  | .assign definitions (.call _ callee arguments results typings) =>
    CallAsks ctx asked definitions callee arguments results typings
  | .assign _ (.hook setter handler arguments _ _ _) =>
    ∃ types, HookAsks stack asked setter handler arguments types
  | .ret values => ReturnAsks ctx asked values
  | .branch condition _ => ∃ arguments, condition = .op opcode arguments [] [] false
  | _ => True

/-- The lift of an instruction: what it takes and puts is what the instruction uses. -/
inductive Step (opcode : Opcode) (f f' : Frame) (i : Instruction) : Prop where
  | intro (taken put : List Slot) (asked : List Effect) (moved : Moved f f' taken put asked)
    (uses : Uses ctx taken put i) (asks : Asks ctx opcode f.stack asked i) : Step opcode f f' i

variable {ctx} {f f' : Frame} {i : Instruction} {opcode : Opcode}

theorem step_switch (h : Comes (switch ctx) f i f') : Step ctx opcode f f' i := by
  obtain ⟨s, f₁, popped, h₁⟩ := comes_bind.1 h
  obtain ⟨table, f₂, found, h₂⟩ := comes_bind.1 h₁
  obtain rfl := stays_switchTable found
  obtain ⟨cases, f₃, labels, h₃⟩ := comes_bind.1 h₂
  obtain rfl := stays_caseLabels labels
  obtain ⟨rfl, rfl⟩ := comes_pure.1 h₃
  exact ⟨[s], [], _, (moved_pop popped).2,
    uses_plain (by simp [Instruction.definitions]) (gathered_slots [s]) rfl, trivial⟩

theorem step_goto (h : Comes (goto ctx) f i f') : Step ctx opcode f f' i := by
  obtain ⟨n, f₁, taken, h₁⟩ := comes_bind.1 h
  obtain rfl := stays_intOperand taken
  obtain ⟨l, f₂, target, h₂⟩ := comes_bind.1 h₁
  obtain rfl := stays_jump target
  obtain ⟨rfl, rfl⟩ := comes_pure.1 h₂
  exact ⟨[], [], _, .refl _, uses_plain (by simp [Instruction.definitions]) (gathered_nil _) rfl,
    trivial⟩

theorem step_branchCompare (h : Comes (branchCompare ctx opcode) f i f') :
    Step ctx opcode f f' i := by
  obtain ⟨n, f₁, taken, h₁⟩ := comes_bind.1 h
  obtain rfl := stays_intOperand taken
  obtain ⟨l, f₂, target, h₂⟩ := comes_bind.1 h₁
  obtain rfl := stays_jump target
  obtain ⟨right, f₃, first, h₃⟩ := comes_bind.1 h₂
  obtain ⟨left, f₄, second, h₄⟩ := comes_bind.1 h₃
  obtain ⟨_, f₅, joined, h₅⟩ := comes_bind.1 h₄
  obtain ⟨rfl, rfl⟩ := comes_pure.1 h₅
  have moved := ((moved_pop first).2.trans (moved_pop second).2).onward (moved_unify joined)
  exact ⟨[right, left], [], _, moved, uses_branch (gathered_reverse [left, right]), _, rfl⟩

theorem step_constant {type : StackType} (h : Comes (constant ctx type) f i f') :
    Step ctx opcode f f' i := by
  obtain ⟨value, f₁, taken, h₁⟩ := comes_bind.1 h
  obtain rfl := stays_operand taken
  split at h₁
  · obtain ⟨t, f₂, new, h₂⟩ := comes_bind.1 h₁
    obtain ⟨s, f₃, pushed, h₃⟩ := comes_bind.1 h₂
    obtain ⟨_, f₄, joined, h₄⟩ := comes_bind.1 h₃
    obtain ⟨rfl, rfl⟩ := comes_pure.1 h₄
    have moved := ((moved_nameless new).onward (moved_push pushed).2.2).onward (moved_unify joined)
    have plain : Gathered ctx [] [.const value t] := gathered_other rfl (by simp [Expr.location?])
    exact ⟨[], [s], _, moved, uses_plain (vars_slots [s]) plain (writes_slots [s]), trivial⟩
  · exact absurd h₁ not_comes_defect

theorem step_load {storage : Storage} (h : Comes (load ctx storage) f i f') :
    Step ctx opcode f f' i := by
  obtain ⟨v, f₁, found, h₁⟩ := comes_bind.1 h
  have lasting := gives_stored ctx storage f v f₁ found
  obtain rfl := stays_stored found
  obtain ⟨t, f₂, declared, h₂⟩ := comes_bind.1 h₁
  obtain ⟨s, f₃, pushed, h₃⟩ := comes_bind.1 h₂
  obtain ⟨_, f₄, joined, h₄⟩ := comes_bind.1 h₃
  obtain ⟨rfl, rfl⟩ := comes_pure.1 h₄
  have moved :=
    ((moved_typed declared).2.onward (moved_push pushed).2.2).onward (moved_unify joined)
  have plain : Gathered ctx [] [.var v t] := by
    apply gathered_other rfl
    rintro u ⟨⟩
    exact lasting
  exact ⟨[], [s], _, moved, uses_plain (vars_slots [s]) plain (writes_slots [s]), trivial⟩

theorem step_store {storage : Storage} (h : Comes (store ctx storage) f i f') :
    Step ctx opcode f f' i := by
  obtain ⟨v, f₁, found, h₁⟩ := comes_bind.1 h
  have lasting := gives_stored ctx storage f v f₁ found
  obtain rfl := stays_stored found
  obtain ⟨s, f₂, popped, h₂⟩ := comes_bind.1 h₁
  obtain ⟨t, f₃, declared, h₃⟩ := comes_bind.1 h₂
  obtain ⟨_, f₄, joined, h₄⟩ := comes_bind.1 h₃
  obtain ⟨rfl, rfl⟩ := comes_pure.1 h₄
  have moved :=
    ((moved_pop popped).2.onward (moved_typed declared).2).onward (moved_unify joined)
  have vars : ∀ d ∈ [Expr.var v t], d.isVar := by simp [Expr.isVar]
  have none : ([Expr.var v t].filterMap Expr.location?).filter Variable.isStack = [] := by
    simp [Expr.location?, lasting]
  exact ⟨[s], [], _, moved, uses_plain vars (gathered_slots [s]) none, trivial⟩

theorem step_discard {type : StackType} (h : Comes (discard ctx type) f i f') :
    Step ctx opcode f f' i := by
  obtain ⟨s, f₁, popped, h₁⟩ := comes_bind.1 h
  obtain ⟨rfl, rfl⟩ := comes_pure.1 h₁
  exact ⟨[s], [], _, (moved_pop popped).2,
    uses_plain (by simp [Instruction.definitions]) (gathered_slots [s]) rfl, trivial⟩

theorem step_define {f₁ : Frame} {taken : List Slot} {es : List Expr} {name : Opcode}
    {type : StackType} {typing : TypeVar} {asked : List Effect}
    (before : Moved f f₁ taken [] asked) (gathered : Gathered ctx taken es)
    (h : Comes (define ctx name es type typing) f₁ i f') :
    Step ctx opcode f f' i := by
  obtain ⟨s, f₂, pushed, h₁⟩ := comes_bind.1 h
  obtain ⟨_, f₃, joined, h₂⟩ := comes_bind.1 h₁
  obtain ⟨rfl, rfl⟩ := comes_pure.1 h₂
  have moved := (before.onward (moved_push pushed).2.2).onward (moved_unify joined)
  exact ⟨taken, [s], _, moved, uses_slots rfl gathered [s], trivial⟩

theorem step_joinString (h : Comes (joinString ctx) f i f') : Step ctx opcode f f' i := by
  obtain ⟨n, f₁, taken, h₁⟩ := comes_bind.1 h
  obtain rfl := stays_intOperand taken
  split at h₁
  · exact absurd h₁ not_comes_malformed
  · obtain ⟨slots, f₂, popped, h₂⟩ := comes_bind.1 h₁
    obtain ⟨t, f₃, new, h₃⟩ := comes_bind.1 h₂
    have moved := (moved_popStrings popped).onward (moved_nameless new)
    exact step_define moved (gathered_reverse slots) h₃

theorem moved_enumKey {key : Slot} {e : Expr} (h : Comes (enumKey ctx key) f e f') :
    ∃ s asked, e = slotExpr ctx s ∧ Moved f f' [s] [] asked := by
  obtain ⟨t, f₁, tag, h₁⟩ := comes_bind.1 h
  obtain rfl := stays_typeTag tag
  obtain ⟨u, f₂, new, h₂⟩ := comes_bind.1 h₁
  obtain ⟨_, f₃, joined, h₃⟩ := comes_bind.1 h₂
  obtain ⟨s, asked, rfl, -, popped⟩ := moved_popAs h₃
  exact ⟨s, _, rfl, ((moved_pinned new).trans (moved_unify joined)).trans popped⟩

theorem step_enum (h : Comes (enum ctx opcode) f i f') : Step ctx opcode f f' i := by
  obtain ⟨key, f₁, popped, h₁⟩ := comes_bind.1 h
  obtain ⟨_, f₂, second, h₂⟩ := comes_bind.1 h₁
  obtain ⟨id, _, rfl, -, moved₂⟩ := moved_popAs second
  obtain ⟨valueType, f₃, tag, h₃⟩ := comes_bind.1 h₂
  obtain rfl := stays_typeTag tag
  obtain ⟨_, f₄, third, h₄⟩ := comes_bind.1 h₃
  obtain ⟨valueTag, _, rfl, -, moved₃⟩ := moved_popAs third
  obtain ⟨_, f₅, fourth, h₅⟩ := comes_bind.1 h₄
  obtain ⟨keyTag, _, rfl, moved₄⟩ := moved_enumKey fourth
  obtain ⟨t, f₆, new, h₆⟩ := comes_bind.1 h₅
  have moved := ((((moved_pop popped).2.trans moved₂).trans moved₃).trans moved₄).onward
    (moved_pinned new)
  exact step_define moved (gathered_reverse [keyTag, valueTag, id, key]) h₆

theorem step_enumHasOutput (h : Comes (enumHasOutput ctx opcode) f i f') :
    Step ctx opcode f f' i := by
  obtain ⟨key, f₁, popped, h₁⟩ := comes_bind.1 h
  obtain ⟨_, f₂, second, h₂⟩ := comes_bind.1 h₁
  obtain ⟨id, _, rfl, -, moved₂⟩ := moved_popAs second
  obtain ⟨_, f₃, third, h₃⟩ := comes_bind.1 h₂
  obtain ⟨keyTag, _, rfl, moved₃⟩ := moved_enumKey third
  obtain ⟨t, f₄, new, h₄⟩ := comes_bind.1 h₃
  have moved := (((moved_pop popped).2.trans moved₂).trans moved₃).onward (moved_pinned new)
  exact step_define moved (gathered_reverse [keyTag, id, key]) h₄

theorem step_param {receiver : Prototype} (h : Comes (param ctx opcode receiver) f i f') :
    Step ctx opcode f f' i := by
  obtain ⟨n, f₁, seen, h₁⟩ := comes_bind.1 h
  obtain rfl := stays_peekInt seen
  split at h₁
  · exact absurd h₁ not_comes_throw
  · obtain ⟨_, f₂, first, h₂⟩ := comes_bind.1 h₁
    obtain ⟨key, _, rfl, -, moved₁⟩ := moved_popAs first
    obtain ⟨_, f₃, second, h₃⟩ := comes_bind.1 h₂
    obtain ⟨holder, _, rfl, -, moved₂⟩ := moved_popAs second
    obtain ⟨t, f₄, new, h₄⟩ := comes_bind.1 h₃
    have moved := (moved₁.trans moved₂).onward (moved_pinned new)
    exact step_define moved (gathered_reverse [holder, key]) h₄

theorem step_dbGetField (h : Comes (dbGetField ctx opcode) f i f') : Step ctx opcode f f' i := by
  obtain ⟨n, f₁, seen, h₁⟩ := comes_bind.1 h
  obtain rfl := stays_peekInt seen
  split at h₁
  · exact absurd h₁ not_comes_throw
  · obtain ⟨_, f₂, first, h₂⟩ := comes_bind.1 h₁
    obtain ⟨tuple, _, rfl, -, moved₁⟩ := moved_popAs first
    obtain ⟨_, f₃, second, h₃⟩ := comes_bind.1 h₂
    obtain ⟨column, _, rfl, -, moved₂⟩ := moved_popAs second
    obtain ⟨_, f₄, third, h₄⟩ := comes_bind.1 h₃
    obtain ⟨row, _, rfl, -, moved₃⟩ := moved_popAs third
    obtain ⟨ts, f₅, new, h₅⟩ := comes_bind.1 h₄
    obtain ⟨-, _, pins⟩ := moved_pinnedAll new
    obtain ⟨slots, f₆, pushed, h₆⟩ := comes_bind.1 h₅
    obtain ⟨_, f₇, joined, h₇⟩ := comes_bind.1 h₆
    obtain ⟨rfl, rfl⟩ := comes_pure.1 h₇
    have moved := ((((moved₁.trans moved₂).trans moved₃).onward pins).onward
      (moved_pushAll pushed).2).onward (moved_unifyAll joined)
    rw [List.append_nil] at moved
    exact ⟨[tuple, column, row], slots, _, moved,
      uses_slots rfl (gathered_reverse [row, column, tuple]) slots, trivial⟩

theorem moved_array {n : Int32} {e : Expr} (h : Comes (array ctx n) f e f') :
    (∃ v t, e = .var v t ∧ v.isStack = false) ∧ ∃ asked, Moved f f' [] [] asked := by
  unfold array at h
  split at h
  · obtain ⟨t, f₁, declared, h₁⟩ := comes_bind.1 h
    obtain ⟨rfl, rfl⟩ := comes_pure.1 h₁
    exact ⟨⟨_, t, rfl, rfl⟩, _, (moved_typed declared).2⟩
  · exact absurd h not_comes_malformed

theorem gathered_array {e : Expr} (h : ∃ v t, e = .var v t ∧ v.isStack = false) :
    Gathered ctx [] [e] := by
  obtain ⟨v, t, rfl, lasting⟩ := h
  apply gathered_other rfl
  rintro u ⟨⟩
  exact lasting

theorem moved_forM {α : Type} {g : α → Lift PUnit}
    (each : ∀ {a f u f'}, Comes (g a) f u f' → ∃ asked, Moved f f' [] [] asked) {as : List α}
    {u : PUnit} (h : Comes (as.forM g) f u f') : ∃ asked, Moved f f' [] [] asked := by
  induction as generalizing f with
  | nil =>
    obtain ⟨-, rfl⟩ := comes_pure.1 h
    exact ⟨_, .refl _⟩
  | cons a as ih =>
    obtain ⟨_, f₁, one, h₁⟩ := comes_bind.1 h
    obtain ⟨_, moved⟩ := each one
    obtain ⟨_, later⟩ := ih h₁
    exact ⟨_, moved.onward later⟩

theorem step_defineArray (h : Comes (defineArray ctx opcode) f i f') : Step ctx opcode f f' i := by
  obtain ⟨packed, f₁, taken, h₁⟩ := comes_bind.1 h
  obtain rfl := stays_intOperand taken
  obtain ⟨_, f₂, first, h₂⟩ := comes_bind.1 h₁
  obtain ⟨length, _, rfl, -, moved₁⟩ := moved_popAs first
  obtain ⟨elements, f₃, second, h₃⟩ := comes_bind.1 h₂
  obtain ⟨lasting, _, moved₂⟩ := moved_array second
  simp only at h₃
  split at h₃
  · exact absurd h₃ not_comes_defect
  · obtain ⟨_, f₄, frozen, h₄⟩ := comes_bind.1 h₃
    obtain ⟨_, moved₃⟩ := moved_forM (fun one => ⟨_, moved_emit one⟩) frozen
    obtain ⟨rfl, rfl⟩ := comes_pure.1 h₄
    have gathered : Gathered ctx [length] [elements, slotExpr ctx length] :=
      (gathered_slots [length]).append (gathered_array lasting)
    exact ⟨[length], [], _, (moved₁.onward moved₂).onward moved₃,
      uses_slots rfl gathered [], trivial⟩

theorem step_pushArrayInt (h : Comes (pushArrayInt ctx opcode) f i f') :
    Step ctx opcode f f' i := by
  obtain ⟨_, f₁, first, h₁⟩ := comes_bind.1 h
  obtain ⟨index, _, rfl, -, moved₁⟩ := moved_popAs first
  obtain ⟨n, f₂, taken, h₂⟩ := comes_bind.1 h₁
  obtain rfl := stays_intOperand taken
  obtain ⟨elements, f₃, second, h₃⟩ := comes_bind.1 h₂
  obtain ⟨lasting, _, moved₂⟩ := moved_array second
  obtain ⟨t, f₄, new, h₄⟩ := comes_bind.1 h₃
  obtain ⟨_, f₅, joined, h₅⟩ := comes_bind.1 h₄
  obtain ⟨_, moved₃⟩ := moved_forM (fun one => ⟨_, moved_unify one⟩) joined
  have gathered : Gathered ctx [index] [elements, slotExpr ctx index] :=
    (gathered_slots [index]).append (gathered_array lasting)
  have moved := ((moved₁.onward moved₂).onward (moved_nameless new)).onward moved₃
  exact step_define moved gathered h₅

theorem step_popArrayInt (h : Comes (popArrayInt ctx opcode) f i f') : Step ctx opcode f f' i := by
  obtain ⟨value, f₁, popped, h₁⟩ := comes_bind.1 h
  obtain ⟨_, f₂, first, h₂⟩ := comes_bind.1 h₁
  obtain ⟨index, _, rfl, -, moved₁⟩ := moved_popAs first
  obtain ⟨n, f₃, taken, h₃⟩ := comes_bind.1 h₂
  obtain rfl := stays_intOperand taken
  obtain ⟨elements, f₄, second, h₄⟩ := comes_bind.1 h₃
  obtain ⟨lasting, _, moved₂⟩ := moved_array second
  obtain ⟨_, f₅, joined, h₅⟩ := comes_bind.1 h₄
  obtain ⟨_, moved₃⟩ := moved_forM (fun one => ⟨_, moved_unify one⟩) joined
  obtain ⟨rfl, rfl⟩ := comes_pure.1 h₅
  have gathered : Gathered ctx [value, index] [elements, slotExpr ctx index, slotExpr ctx value] :=
    (gathered_reverse [index, value]).append (gathered_array lasting)
  have moved := (((moved_pop popped).2.trans moved₁).onward moved₂).onward moved₃
  exact ⟨_, [], _, moved, uses_slots rfl gathered [], trivial⟩

def Input.slot? : Input → Option Slot
  | .slot s => some s
  | .operand | .localVar => none

theorem moved_inputs {args : List (Prototype × Source)} {found : List (Prototype × Input)}
    (h : Comes (inputs ctx args) f found f') :
    Moved f f' (found.filterMap fun a => a.2.slot?).reverse [] [] := by
  induction args generalizing f f' found with
  | nil =>
    obtain ⟨rfl, rfl⟩ := comes_pure.1 h
    exact .refl _
  | cons arg args ih =>
    obtain ⟨p, source⟩ := arg
    obtain ⟨later, f₁, rest, h₁⟩ := comes_bind.1 h
    have moved := ih rest
    cases source with
    | stack =>
      obtain ⟨s, f₂, popped, h₂⟩ := comes_bind.1 h₁
      obtain ⟨rfl, rfl⟩ := comes_pure.1 h₂
      have both := moved.trans (moved_pop popped).2
      simpa [Input.slot?] using both
    | operand | localVar =>
      obtain ⟨rfl, rfl⟩ := comes_pure.1 h₁
      simpa [Input.slot?] using moved

theorem moved_operandLocal {type : StackType} {v : Variable}
    (h : Comes (operandLocal ctx type) f v f') : v.isStack = false ∧ f' = f := by
  obtain ⟨n, f₁, taken, h₁⟩ := comes_bind.1 h
  obtain rfl := stays_intOperand taken
  split at h₁
  · obtain ⟨rfl, rfl⟩ := comes_pure.1 h₁
    exact ⟨rfl, rfl⟩
  · exact absurd h₁ not_comes_defect

theorem moved_argument {value : Value} {p : Prototype} {input : Input} {e : Expr}
    (h : Comes (argument ctx value p input) f e f') :
    Gathered ctx input.slot?.toList [e] ∧ ∃ asked, Moved f f' [] [] asked := by
  obtain ⟨t, f₁, new, h₁⟩ := comes_bind.1 h
  cases input with
  | slot s =>
    obtain ⟨_, f₂, joined, h₂⟩ := comes_bind.1 h₁
    obtain ⟨rfl, rfl⟩ := comes_pure.1 h₂
    exact ⟨gathered_slots [s], _, (moved_pinned new).onward (moved_unify joined)⟩
  | operand =>
    simp only at h₁
    split at h₁
    · obtain ⟨rfl, rfl⟩ := comes_pure.1 h₁
      exact ⟨gathered_other rfl (by simp [Expr.location?]), _, moved_pinned new⟩
    · exact absurd h₁ not_comes_defect
  | localVar =>
    obtain ⟨v, f₂, found, h₂⟩ := comes_bind.1 h₁
    obtain ⟨lasting, rfl⟩ := moved_operandLocal found
    obtain ⟨u, f₃, declared, h₃⟩ := comes_bind.1 h₂
    obtain ⟨_, f₄, joined, h₄⟩ := comes_bind.1 h₃
    obtain ⟨rfl, rfl⟩ := comes_pure.1 h₄
    exact ⟨gathered_array ⟨v, u, rfl, lasting⟩, _,
      ((moved_pinned new).onward (moved_typed declared).2).onward (moved_unify joined)⟩

theorem moved_arguments {value : Value} {found : List (Prototype × Input)} {es : List Expr}
    (h : Comes (arguments ctx value found) f es f') :
    Gathered ctx (found.filterMap fun a => a.2.slot?).reverse es ∧
      ∃ asked, Moved f f' [] [] asked := by
  induction found generalizing f es with
  | nil =>
    obtain ⟨rfl, rfl⟩ := comes_pure.1 h
    exact ⟨gathered_nil _, _, .refl _⟩
  | cons arg found ih =>
    obtain ⟨e, f₁, one, h₁⟩ := comes_bind.1 h
    obtain ⟨later, f₂, rest, h₂⟩ := comes_bind.1 h₁
    obtain ⟨rfl, rfl⟩ := comes_pure.1 h₂
    obtain ⟨first, _, moved⟩ := moved_argument one
    obtain ⟨others, _, moved'⟩ := ih rest
    refine ⟨?_, _, moved.onward moved'⟩
    have both := others.append first
    cases slot : arg.2.slot? with
    | none => simpa [slot] using both
    | some s => simpa [slot] using both

theorem moved_results {defs : List (Prototype × Destination)} {ds : List (Variable × TypeVar)}
    (h : Comes (results ctx defs) f ds f') : ∃ slots asked, Moved f f' [] slots asked ∧
      (ds.map Prod.fst).filter Variable.isStack = slots.map (slotVariable ctx) := by
  induction defs generalizing f ds with
  | nil =>
    obtain ⟨rfl, rfl⟩ := comes_pure.1 h
    exact ⟨[], _, .refl _, rfl⟩
  | cons d defs ih =>
    obtain ⟨r, f₁, one, h₁⟩ := comes_bind.1 h
    obtain ⟨later, f₂, rest, h₂⟩ := comes_bind.1 h₁
    obtain ⟨rfl, rfl⟩ := comes_pure.1 h₂
    obtain ⟨slots, asked, moved, stacked⟩ := ih rest
    obtain ⟨p, destination⟩ := d
    cases destination with
    | stack =>
      obtain ⟨s, f₃, pushed, h₃⟩ := comes_bind.1 one
      obtain ⟨rfl, rfl⟩ := comes_pure.1 h₃
      refine ⟨s :: slots, _, (moved_push pushed).2.2.onward moved, ?_⟩
      simpa [List.filter_cons, slotVariable, Variable.isStack] using stacked
    | localVar =>
      obtain ⟨v, f₃, found, h₃⟩ := comes_bind.1 one
      obtain ⟨lasting, rfl⟩ := moved_operandLocal found
      obtain ⟨t, f₄, declared, h₄⟩ := comes_bind.1 h₃
      obtain ⟨rfl, rfl⟩ := comes_pure.1 h₄
      refine ⟨slots, _, (moved_typed declared).2.onward moved, ?_⟩
      simpa [lasting] using stacked

theorem step_basic {s : Signature} (h : Comes (basic ctx s) f i f') : Step ctx opcode f f' i := by
  obtain ⟨value, f₁, taken, h₁⟩ := comes_bind.1 h
  obtain rfl := stays_operand taken
  split at h₁
  · exact absurd h₁ not_comes_defect
  · obtain ⟨found, f₂, popped, h₂⟩ := comes_bind.1 h₁
    obtain ⟨args, f₃, typed, h₃⟩ := comes_bind.1 h₂
    obtain ⟨ts, f₄, new, h₄⟩ := comes_bind.1 h₃
    obtain ⟨ds, f₅, defined, h₅⟩ := comes_bind.1 h₄
    obtain ⟨_, f₆, joined, h₆⟩ := comes_bind.1 h₅
    obtain ⟨rfl, rfl⟩ := comes_pure.1 h₆
    obtain ⟨gathered, _, moved₁⟩ := moved_arguments typed
    obtain ⟨-, _, moved₂⟩ := moved_mapM (R := fun _ _ => True)
      (fun one => ⟨trivial, _, moved_pinned one⟩) new
    obtain ⟨slots, _, moved₃, stacked⟩ := moved_results defined
    have moved := ((((moved_inputs popped).onward moved₁).onward moved₂).onward moved₃).onward
      (moved_unifyAll joined)
    have vars : ∀ d ∈ ds.map (fun d => Expr.var d.1 d.2), d.isVar := by
      intro d member
      obtain ⟨_, -, rfl⟩ := List.mem_map.1 member
      rfl
    have located : (ds.map fun d => Expr.var d.1 d.2).filterMap Expr.location? =
        ds.map Prod.fst := by
      rw [List.filterMap_map]
      exact congrFun (List.filterMap_eq_map (f := Prod.fst)) ds
    exact ⟨_, slots, _, by simpa using moved,
      uses_computed vars rfl gathered (located ▸ stacked), trivial⟩

end Lift

end ClientScript
