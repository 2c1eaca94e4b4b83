import ClientScript.Proofs.Lift.Parts
import ClientScript.Proofs.Lift.ScopedFrames

/-!
What a lift asks for, also if it fails on the way. Operations on frames ask for nothing, or declare
variables of the script and global ones; and most commands ask for no other script.
-/
namespace ClientScript

def Variable.owner? : Variable → Option Int32
  | .stack script .. | .localVar script .. | .array script _ => some script
  | .varp _ | .varbit _ | .varcInt _ | .varcString _ => none

def TypeVar.owner? : TypeVar → Option Int32
  | .ofVariable v => v.owner?
  | .ofResult script _ | .ofValue script _ => some script
  | .cell _ => none

def Effect.callee? : Effect → Option Int32
  | .enter callee | .record callee _ => some callee
  | _ => none

/-- An effect that asks for no script, and declares only what is global or of these scripts. -/
structure Effect.Local (ids : List Int32) (e : Effect) : Prop where
  quiet : e.callee? = none
  owned : ∀ t ∈ e.declares, ∀ owner ∈ t.owner?, owner ∈ ids

def Instruction.isRequest : Instruction → Bool
  | .assign _ e => e.isRequest
  | _ => false

namespace Lift

/-- A lift asks only for effects of some kind, also if it fails; and what it gives satisfies the
    condition. -/
def Emits {α : Type} (P : Effect → Prop) (m : Lift α) (Q : α → Prop) : Prop :=
  ∀ f r f', m.run.run f = (r, f') →
    (∃ asked, f'.effects = f.effects ++ asked ∧ ∀ e ∈ asked, P e) ∧ ∀ a, r = .ok a → Q a

abbrev anything {α : Type} (_ : α) : Prop := True

section

variable {α β : Type} {P : Effect → Prop} {m : Lift α} {Q : α → Prop} {ctx : Context}

theorem emits_pure {a : α} (h : Q a) : Emits P (pure a) Q := by
  intro f r f' run
  cases run
  refine ⟨⟨[], by simp, by simp⟩, ?_⟩
  rintro _ ⟨⟩
  exact h

theorem emits_throw (e : Failure) : Emits P (throw e : Lift α) Q := by
  intro f r f' run
  cases run
  exact ⟨⟨[], by simp, by simp⟩, by simp⟩

theorem run_bind {k : α → Lift β} {f f' : Frame} {r : Except Failure β}
    (run : (m >>= k).run.run f = (r, f')) :
    (∃ e, m.run.run f = (.error e, f') ∧ r = .error e) ∨
      ∃ a f₁, m.run.run f = (.ok a, f₁) ∧ (k a).run.run f₁ = (r, f') := by
  rcases first : m.run.run f with ⟨result, middle⟩
  simp only [ExceptT.run_bind, StateT.run_bind, first] at run
  cases result with
  | error e =>
    cases run
    exact .inl ⟨e, rfl, rfl⟩
  | ok a => exact .inr ⟨a, middle, rfl, run⟩

theorem emits_bind {k : α → Lift β} {R : β → Prop} (first : Emits P m Q)
    (later : ∀ a, Q a → Emits P (k a) R) : Emits P (m >>= k) R := by
  intro f r f' run
  rcases run_bind run with ⟨e, failed, rfl⟩ | ⟨a, f₁, ok, rest⟩
  · exact ⟨(first f _ f' failed).1, by simp⟩
  · obtain ⟨⟨asked, effects, are⟩, gives⟩ := first f _ f₁ ok
    obtain ⟨⟨asked', effects', are'⟩, gives'⟩ := later a (gives a rfl) f₁ r f' rest
    refine ⟨⟨asked ++ asked', ?_, ?_⟩, gives'⟩
    · rw [effects', effects, List.append_assoc]
    · intro e member
      exact (List.mem_append.1 member).elim (are e) (are' e)

theorem emits_then {k : α → Lift β} {R : β → Prop} (first : Emits P m anything)
    (later : ∀ a, Emits P (k a) R) : Emits P (m >>= k) R :=
  emits_bind first fun a _ => later a

theorem emits_get_bind {k : Frame → Lift β} {R : β → Prop} (later : ∀ f, Emits P (k f) R) :
    Emits P (get >>= k) R := fun f => later f f

theorem emits_mapM {g : β → Lift α} {bs : List β} (each : ∀ b ∈ bs, Emits P (g b) anything) :
    Emits P (bs.mapM g) anything := by
  induction bs with
  | nil => exact emits_pure trivial
  | cons b bs ih =>
    rw [List.mapM_cons]
    refine emits_then (each b (by simp)) fun _ => emits_then (ih ?_) fun _ => emits_pure trivial
    exact fun b' later => each b' (List.mem_cons_of_mem _ later)

theorem emits_forM {g : β → Lift PUnit} {bs : List β} (each : ∀ b, Emits P (g b) anything) :
    Emits P (bs.forM g) anything := by
  induction bs with
  | nil => exact emits_pure trivial
  | cons b bs ih => exact emits_then (each b) fun _ => ih

theorem emits_emit {e : Effect} (is : P e) : Emits P (emit e) anything := by
  intro f r f' run
  cases run
  exact ⟨⟨[e], rfl, by simpa using is⟩, fun _ _ => trivial⟩

theorem emits_malformed (cause : Malformation) : Emits P (malformed ctx cause : Lift α) Q :=
  emits_throw _

theorem emits_imbalance (cause : Imbalance) : Emits P (imbalance ctx cause : Lift α) Q :=
  emits_get_bind fun _ => emits_throw _

theorem emits_defect (d : Defect) : Emits P (defect ctx d : Lift α) Q :=
  emits_get_bind fun _ => emits_malformed _

theorem emits_pop (type : StackType) : Emits P (pop ctx type) anything := by
  intro f r f' run
  cases stack : f.stack with
  | nil =>
    simp only [pop, run_get, stack] at run
    exact emits_imbalance (P := P) _ f r f' run
  | cons s rest =>
    simp only [pop, run_get, stack, run_set] at run
    split at run
    · exact emits_pure (P := P) trivial { f with stack := rest } r f' run
    · exact emits_imbalance (P := P) _ { f with stack := rest } r f' run

theorem emits_popMany (count : Nat) : Emits P (popMany ctx count) anything := by
  intro f r f' run
  simp only [popMany, run_get] at run
  split at run
  · exact emits_imbalance (P := P) _ f r f' run
  · exact emits_pure (P := P) trivial { f with stack := f.stack.drop count } r f' run

theorem emits_popAll : Emits P popAll anything := fun f r f' run =>
  emits_pure (P := P) trivial { f with stack := [] } r f' run

theorem emits_popStrings (count : Nat) : Emits P (popStrings ctx count) anything := by
  induction count with
  | zero => exact emits_pure trivial
  | succ n ih => exact emits_then (emits_pop _) fun _ => emits_then ih fun _ => emits_pure trivial

theorem emits_popConstant (type : StackType) : Emits P (popConstant ctx type) anything := by
  refine emits_then (emits_pop type) fun slot => ?_
  split
  · exact emits_pure trivial
  · exact emits_defect _

theorem emits_popInt : Emits P (popInt ctx) anything := by
  refine emits_then (emits_popConstant .int) fun value => ?_
  split
  · exact emits_pure trivial
  · exact emits_defect _

theorem emits_popText : Emits P (popText ctx) anything := by
  refine emits_then (emits_popConstant .string) fun value => ?_
  split
  · exact emits_pure trivial
  · exact emits_defect _

theorem emits_peek (depth : Nat) : Emits P (peek depth) anything :=
  emits_get_bind fun _ => emits_pure trivial

theorem emits_peekInt (depth : Nat) : Emits P (peekInt ctx depth) anything := by
  refine emits_then (emits_peek depth) fun value => ?_
  split
  · exact emits_pure trivial
  · exact emits_defect _

theorem emits_operand : Emits P (operand ctx) anything := by
  refine emits_get_bind fun f => ?_
  split
  · exact emits_pure trivial
  · exact emits_defect _

theorem emits_intOperand : Emits P (intOperand ctx) anything := by
  refine emits_then emits_operand fun value => ?_
  split
  · exact emits_pure trivial
  · exact emits_defect _

theorem emits_jump (offset : Int32) : Emits P (jump ctx offset) anything := by
  refine emits_get_bind fun f => ?_
  simp only
  split
  · exact emits_pure trivial
  · exact emits_defect _

theorem emits_typeTag (depth : Nat) : Emits P (typeTag ctx depth) anything := by
  refine emits_then (emits_peekInt depth) fun tag => ?_
  simp only
  split
  · exact emits_pure trivial
  · exact emits_defect _

theorem emits_switchTable : Emits P (switchTable ctx) anything := by
  refine emits_then emits_intOperand fun index => ?_
  simp only
  split
  · exact emits_pure trivial
  · exact emits_defect _

theorem emits_caseLabels (entries : List (Int32 × Int32)) :
    Emits P (caseLabels ctx entries) anything := by
  induction entries with
  | nil => exact emits_pure trivial
  | cons entry rest ih =>
    exact emits_then (emits_jump _) fun _ => emits_then ih fun _ => emits_pure trivial

theorem emits_describedTypes (descriptor : List Char) :
    Emits P (describedTypes ctx descriptor) anything := by
  induction descriptor with
  | nil => exact emits_pure trivial
  | cons c rest ih =>
    unfold describedTypes
    split
    · exact emits_defect _
    · exact emits_then ih fun _ => emits_pure trivial

theorem emits_handlerArguments (types : List ValueType) :
    Emits P (handlerArguments ctx types) anything := by
  induction types with
  | nil => exact emits_pure trivial
  | cons t rest ih =>
    refine emits_then ih fun _ => emits_then (emits_peek 0) fun _ => ?_
    refine emits_then (emits_pop _) fun slot => ?_
    split
    · exact emits_pure trivial
    · exact emits_pure trivial

theorem emits_inputs (args : List (Prototype × Source)) :
    Emits P (inputs ctx args) anything := by
  induction args with
  | nil => exact emits_pure trivial
  | cons arg rest ih =>
    obtain ⟨p, source⟩ := arg
    refine emits_then ih fun found => ?_
    cases source with
    | stack => exact emits_then (emits_pop _) fun _ => emits_pure trivial
    | operand | localVar => exact emits_pure trivial

end

section

variable {ctx : Context} {ids : List Int32}

theorem emits_unify (a b : TypeVar) : Emits (Effect.Local ids) (unify a b) anything :=
  emits_emit ⟨rfl, by simp [Effect.declares]⟩

theorem emits_unifyAll (pairs : List (TypeVar × TypeVar)) :
    Emits (Effect.Local ids) (unifyAll pairs) anything := by
  induction pairs with
  | nil => exact emits_pure trivial
  | cons p rest ih => exact emits_then (emits_unify _ _) fun _ => ih

theorem emits_freeze (t : TypeVar) (pin : ValueType) :
    Emits (Effect.Local ids) (emit (.freeze t pin)) anything :=
  emits_emit ⟨rfl, by simp [Effect.declares]⟩

theorem emits_typed {v : Variable} (owned : ∀ owner ∈ v.owner?, owner ∈ ids) :
    Emits (Effect.Local ids) (typed v) anything :=
  emits_then (emits_emit ⟨rfl, by simpa [Effect.declares, TypeVar.owner?] using owned⟩) fun _ =>
    emits_pure trivial

theorem owner_of_mem_parametersFrom {script : Int32} {types : List StackType} {v : Variable} :
    ∀ {ints strings}, v ∈ Variable.parametersFrom script ints strings types →
      v.owner? = some script := by
  induction types with
  | nil => simp [Variable.parametersFrom]
  | cons t types ih =>
    intro ints strings member
    cases t with
    | int | string =>
      rcases List.mem_cons.1 member with rfl | later
      · rfl
      · exact ih later

theorem emits_parameters {script : Int32} (types : List StackType) (inside : script ∈ ids) :
    Emits (Effect.Local ids) ((Variable.parameters script types).mapM typed) anything := by
  refine emits_mapM fun v member => emits_typed fun owner owned => ?_
  rw [owner_of_mem_parametersFrom member] at owned
  exact Option.some.inj owned ▸ inside

theorem emits_results {script : Int32} (types : List StackType) (inside : script ∈ ids) :
    Emits (Effect.Local ids) (emit (.results script types)) anything := by
  refine emits_emit ⟨rfl, fun t declares owner owned => ?_⟩
  obtain ⟨slot, -, rfl⟩ := List.mem_map.1 declares
  exact Option.some.inj owned ▸ inside

theorem owner_of_member? {storage : Storage} {script operand : Int32} {v : Variable}
    (member : storage.member? script operand = some v) : ∀ owner ∈ v.owner?, owner = script := by
  rcases Storage.member?_cases member with ⟨-, rfl⟩ | ⟨global, -⟩
  · simp [Variable.owner?]
  · cases v <;> simp [Variable.isGlobal, Variable.owner?] at global ⊢

theorem emits_stored (storage : Storage) : Emits (Effect.Local ids) (stored ctx storage)
    fun v => ∀ owner ∈ v.owner?, owner = ctx.script := by
  refine emits_then emits_intOperand fun operand => ?_
  split
  · rename_i v member
    exact emits_pure (owner_of_member? member)
  · exact emits_malformed _

theorem emits_operandLocal (type : StackType) : Emits (Effect.Local ids) (operandLocal ctx type)
    fun v => ∀ owner ∈ v.owner?, owner = ctx.script := by
  refine emits_then emits_intOperand fun index => ?_
  split
  · exact emits_pure (by simp [Variable.owner?])
  · exact emits_defect _

variable (mine : ctx.script ∈ ids)

include mine

theorem emits_nameless (stack : StackType) (types : List ValueType) :
    Emits (Effect.Local ids) (nameless ctx stack types) anything := by
  intro f r f' run
  cases run
  refine ⟨⟨_, rfl, ?_⟩, fun _ _ => trivial⟩
  intro e member
  obtain rfl := List.mem_singleton.1 member
  exact ⟨rfl, by simpa [Effect.declares, TypeVar.owner?] using mine⟩

theorem emits_pinned (p : Prototype) : Emits (Effect.Local ids) (pinned ctx p) anything :=
  emits_nameless mine _ _

theorem emits_push (type : StackType) (constant : Option Value) :
    Emits (Effect.Local ids) (push ctx type constant) anything := by
  intro f r f' run
  cases run
  refine ⟨⟨_, rfl, ?_⟩, fun _ _ => trivial⟩
  intro e member
  obtain rfl := List.mem_singleton.1 member
  refine ⟨rfl, ?_⟩
  simpa [Effect.declares, TypeVar.owner?, slotType, slotVariable, Variable.owner?] using mine

theorem emits_pushAll (types : List StackType) :
    Emits (Effect.Local ids) (pushAll ctx types) anything :=
  emits_mapM fun _ _ => emits_push mine _ _

theorem emits_popAs (p : Prototype) : Emits (Effect.Local ids) (popAs ctx p) anything :=
  emits_then (emits_pop _) fun _ => emits_then (emits_pinned mine p) fun _ =>
    emits_then (emits_unify _ _) fun _ => emits_pure trivial

theorem emits_pinnedAll {α : Type} (prototype : α → Prototype) (ps : List α) :
    Emits (Effect.Local ids) (ps.mapM fun p => pinned ctx (prototype p)) anything :=
  emits_mapM fun _ _ => emits_pinned mine _

abbrev quiet (i : Instruction) : Prop := i.isRequest = false

theorem emits_define (opcode : Opcode) (arguments : List Expr) (type : StackType)
    (typing : TypeVar) :
    Emits (Effect.Local ids) (define ctx opcode arguments type typing) quiet :=
  emits_then (emits_push mine type none) fun _ => emits_then (emits_unify _ _) fun _ =>
    emits_pure rfl

theorem emits_constant (type : StackType) :
    Emits (Effect.Local ids) (constant ctx type) quiet := by
  refine emits_then emits_operand fun value => ?_
  split
  · exact emits_then (emits_nameless mine _ _) fun _ => emits_then (emits_push mine _ _) fun _ =>
      emits_then (emits_unify _ _) fun _ => emits_pure rfl
  · exact emits_defect _

theorem emits_typed_own {v : Variable} (own : ∀ owner ∈ v.owner?, owner = ctx.script) :
    Emits (Effect.Local ids) (typed v) anything :=
  emits_typed fun owner owned => own owner owned ▸ mine

theorem emits_load (storage : Storage) : Emits (Effect.Local ids) (load ctx storage) quiet := by
  refine emits_bind (emits_stored storage) fun v own => ?_
  exact emits_then (emits_typed_own mine own) fun _ => emits_then (emits_push mine _ _) fun _ =>
    emits_then (emits_unify _ _) fun _ => emits_pure rfl

theorem emits_store (storage : Storage) : Emits (Effect.Local ids) (store ctx storage) quiet := by
  refine emits_bind (emits_stored storage) fun v own => ?_
  exact emits_then (emits_pop _) fun _ => emits_then (emits_typed_own mine own) fun _ =>
    emits_then (emits_unify _ _) fun _ => emits_pure rfl

theorem emits_joinString : Emits (Effect.Local ids) (joinString ctx) quiet := by
  refine emits_then emits_intOperand fun count => ?_
  split
  · exact emits_malformed _
  · exact emits_then (emits_popStrings _) fun _ => emits_then (emits_nameless mine _ _) fun _ =>
      emits_define mine _ _ _ _

theorem emits_ret : Emits (Effect.Local ids) (ret ctx) quiet := by
  refine emits_then emits_popAll fun slots => ?_
  simp only
  split
  · exact emits_then (emits_results _ mine) fun _ => emits_then (emits_unifyAll _) fun _ =>
      emits_pure rfl
  · exact emits_imbalance _

theorem emits_enumKey (key : Slot) : Emits (Effect.Local ids) (enumKey ctx key) anything :=
  emits_then (emits_typeTag 0) fun _ => emits_then (emits_pinned mine _) fun _ =>
    emits_then (emits_unify _ _) fun _ => emits_popAs mine _

theorem emits_enum (opcode : Opcode) : Emits (Effect.Local ids) (enum ctx opcode) quiet :=
  emits_then (emits_pop _) fun _ => emits_then (emits_popAs mine _) fun _ =>
    emits_then (emits_typeTag 0) fun _ => emits_then (emits_popAs mine _) fun _ =>
      emits_then (emits_enumKey mine _) fun _ => emits_then (emits_pinned mine _) fun _ =>
        emits_define mine _ _ _ _

theorem emits_enumHasOutput (opcode : Opcode) :
    Emits (Effect.Local ids) (enumHasOutput ctx opcode) quiet :=
  emits_then (emits_pop _) fun _ => emits_then (emits_popAs mine _) fun _ =>
    emits_then (emits_enumKey mine _) fun _ => emits_then (emits_pinned mine _) fun _ =>
      emits_define mine _ _ _ _

theorem emits_param (opcode : Opcode) (receiver : Prototype) :
    Emits (Effect.Local ids) (param ctx opcode receiver) quiet := by
  refine emits_then (emits_peekInt 0) fun key => ?_
  split
  · exact emits_throw _
  · exact emits_then (emits_popAs mine _) fun _ => emits_then (emits_popAs mine _) fun _ =>
      emits_then (emits_pinned mine _) fun _ => emits_define mine _ _ _ _

theorem emits_dbGetField (opcode : Opcode) :
    Emits (Effect.Local ids) (dbGetField ctx opcode) quiet := by
  refine emits_then (emits_peekInt 1) fun column => ?_
  split
  · exact emits_throw _
  · exact emits_then (emits_popAs mine _) fun _ => emits_then (emits_popAs mine _) fun _ =>
      emits_then (emits_popAs mine _) fun _ => emits_then (emits_pinnedAll mine id _) fun _ =>
        emits_then (emits_pushAll mine _) fun _ => emits_then (emits_unifyAll _) fun _ =>
          emits_pure rfl

theorem emits_array (index : Int32) : Emits (Effect.Local ids) (array ctx index) anything := by
  unfold array
  split
  · exact emits_then (emits_typed (by simpa [Variable.owner?] using mine)) fun _ =>
      emits_pure trivial
  · exact emits_malformed _

theorem emits_defineArray (opcode : Opcode) :
    Emits (Effect.Local ids) (defineArray ctx opcode) quiet := by
  refine emits_then emits_intOperand fun packed => emits_then (emits_popAs mine _) fun _ =>
    emits_then (emits_array mine _) fun elements => ?_
  simp only
  split
  · exact emits_defect _
  · exact emits_then (emits_forM fun _ => emits_freeze _ _) fun _ => emits_pure rfl

theorem emits_pushArrayInt (opcode : Opcode) :
    Emits (Effect.Local ids) (pushArrayInt ctx opcode) quiet :=
  emits_then (emits_popAs mine _) fun _ => emits_then emits_intOperand fun _ =>
    emits_then (emits_array mine _) fun _ => emits_then (emits_nameless mine _ _) fun _ =>
      emits_then (emits_forM fun _ => emits_unify _ _) fun _ => emits_define mine _ _ _ _

theorem emits_popArrayInt (opcode : Opcode) :
    Emits (Effect.Local ids) (popArrayInt ctx opcode) quiet :=
  emits_then (emits_pop _) fun _ => emits_then (emits_popAs mine _) fun _ =>
    emits_then emits_intOperand fun _ => emits_then (emits_array mine _) fun _ =>
      emits_then (emits_forM fun _ => emits_unify _ _) fun _ => emits_pure rfl

theorem emits_argument (operand : Value) (p : Prototype) (input : Input) :
    Emits (Effect.Local ids) (argument ctx operand p input) anything := by
  refine emits_then (emits_pinned mine p) fun expected => ?_
  cases input with
  | slot s => exact emits_then (emits_unify _ _) fun _ => emits_pure trivial
  | operand =>
    simp only
    split
    · exact emits_pure trivial
    · exact emits_defect _
  | localVar =>
    refine emits_bind (emits_operandLocal _) fun v own => ?_
    exact emits_then (emits_typed_own mine own) fun _ => emits_then (emits_unify _ _) fun _ =>
      emits_pure trivial

theorem emits_arguments (operand : Value) (found : List (Prototype × Input)) :
    Emits (Effect.Local ids) (arguments ctx operand found) anything := by
  induction found with
  | nil => exact emits_pure trivial
  | cons f rest ih =>
    exact emits_then (emits_argument mine operand f.1 f.2) fun _ => emits_then ih fun _ =>
      emits_pure trivial

theorem emits_result (p : Prototype) (destination : Destination) :
    Emits (Effect.Local ids) (result ctx p destination) anything := by
  cases destination with
  | stack => exact emits_then (emits_push mine _ _) fun _ => emits_pure trivial
  | localVar =>
    refine emits_bind (emits_operandLocal _) fun v own => ?_
    exact emits_then (emits_typed_own mine own) fun _ => emits_pure trivial

theorem emits_definitions (defs : List (Prototype × Destination)) :
    Emits (Effect.Local ids) (results ctx defs) anything := by
  induction defs with
  | nil => exact emits_pure trivial
  | cons d rest ih =>
    exact emits_then (emits_result mine d.1 d.2) fun _ => emits_then ih fun _ =>
      emits_pure trivial

theorem emits_basic (s : Signature) : Emits (Effect.Local ids) (basic ctx s) quiet := by
  refine emits_then emits_operand fun value => ?_
  split
  · exact emits_defect _
  · exact emits_then (emits_inputs _) fun _ => emits_then (emits_arguments mine _ _) fun _ =>
      emits_then (emits_pinnedAll mine Prod.fst _) fun _ =>
        emits_then (emits_definitions mine _) fun _ => emits_then (emits_unifyAll _) fun _ =>
          emits_pure rfl

end

end Lift

end ClientScript
