import ClientScript.Proofs.Lift.MirroredCommands
import ClientScript.Proofs.Lift.Steps

/-!
Plain signatures. A prototype is plain if it has the type that its stack gives anyway. A declarative
command of plain prototypes mirrors whatever takes the same slots, puts its results in the same
places and says as much of their stacks.
-/
namespace ClientScript

def Prototype.IsPlain (p : Prototype) : Prop := p.type = p.stack.defaultType

def Prototype.plain (stack : StackType) : Prototype := .of stack.defaultType

theorem Prototype.isPlain_plain (stack : StackType) : (plain stack).IsPlain := by
  cases stack <;> rfl

@[simp]
theorem Prototype.stack_plain (stack : StackType) : (plain stack).stack = stack := by
  cases stack <;> rfl

namespace Lift

open Typing

variable {ctx : Context} {F : Facts (Option TypeVar)} {names : Readings} {f f₁ : Frame}
variable {value : Value} {p : Prototype} {found : List (Prototype × Input)}

def Input.source : Input → Source
  | .slot _ => .stack
  | .operand => .operand
  | .localVar => .localVar

def slotsOf (found : List (Prototype × Input)) : List Slot := found.filterMap fun a => a.2.slot?

theorem serves_inputs {kept : List Slot}
    (fit : ∀ p s, (p, .slot s) ∈ found → s.type = p.stack)
    (stack : f.stack = (slotsOf found).reverse ++ kept) :
    Serves ctx F names (inputs ctx (found.map fun a => (a.1, a.2.source))) f
      { f with stack := kept } fun _ found' => found' = found := by
  induction found generalizing kept with
  | nil =>
    have none : Serves ctx F names (inputs ctx []) f f fun _ found' => found' = [] :=
      serves_pure fun _ _ => rfl
    exact none.to rfl stack.symm rfl
  | cons a found ih =>
    obtain ⟨p, input⟩ := a
    have fit' : ∀ p s, (p, .slot s) ∈ found → s.type = p.stack := fun p s member =>
      fit p s (.tail _ member)
    cases input with
    | slot s =>
      have below : f.stack = (slotsOf found).reverse ++ s :: kept := by
        simpa [slotsOf, Input.slot?] using stack
      refine serves_bind (ih fit' below) ?_
      rintro names' _ _ rfl
      change Serves ctx F names' (pop ctx p.stack >>= _) _ _ _
      rw [← fit p s (.head _)]
      refine serves_bind (serves_pop rfl) ?_
      rintro _ _ _ rfl
      exact serves_pure fun _ _ => rfl
    | operand | localVar =>
      refine serves_bind (ih fit' stack) ?_
      rintro names' _ _ rfl
      exact serves_pure fun _ _ => rfl

/-- An input that gives an argument on the stack of a prototype. -/
def Ready (ctx : Context) (F : Facts (Option TypeVar)) (value : Value) (p : Prototype) :
    Input → Prop
  | .slot s => s.type = p.stack
  | .operand => value.stack = p.stack ∧ F.typed none p.stack
  | .localVar => ∃ n : Int32, value = .int n ∧ 0 ≤ n.toInt ∧
      F.typed (some (.ofVariable (.localVar ctx.script n.toInt.toNat p.stack))) p.stack

theorem serves_plain (plain : p.IsPlain) {x : Option TypeVar} (typed : F.typed x p.stack) :
    Serves ctx F names (pinned ctx p) f f fun names' t => ReadAs names' t x :=
  serves_nameless x typed fun _ pin => .inr ((List.mem_singleton.1 pin).trans plain)

theorem serves_unify {a b : TypeVar} {x : Option TypeVar} (left : ReadAs names a x)
    (right : ReadAs names b x) : Serves ctx F names (unify a b) f f fun _ _ => True :=
  serves_emit (.unify left right (.refl x))

theorem serves_operandLocal {type : StackType} {n : Int32}
    (operand : ctx.code.operands[f.pc]? = some (.int n)) (low : 0 ≤ n.toInt) :
    Serves ctx F names (operandLocal ctx type) f f
      fun _ v => v = .localVar ctx.script n.toInt.toNat type := by
  refine serves_of_stays (fun g pc => ?_) fun _ _ => rfl
  refine comes_bind.2 ⟨n, g, comes_intOperand_iff.2 ⟨pc ▸ operand, rfl⟩, ?_⟩
  rw [if_pos low]
  exact comes_pure.2 ⟨rfl, rfl⟩

theorem serves_argument (plain : p.IsPlain) {input : Input} (ready : Ready ctx F value p input)
    (typed : ∀ s ∈ input.slot?, F.typed (some (slotType ctx s)) s.type)
    (operand : ctx.code.operands[f.pc]? = some value) :
    Serves ctx F names (argument ctx value p input) f f fun _ e =>
      e.isSimple ∧ Expr.slots [e] = input.slot?.toList.map (slotVariable ctx) := by
  cases input with
  | slot s =>
    have known : F.typed (some (slotType ctx s)) p.stack := ready ▸ typed s rfl
    refine serves_bind (serves_plain plain known) fun _ _ t read => ?_
    exact serves_bind (serves_unify (.ofVariable _) read) fun _ _ _ _ =>
      serves_pure fun _ _ => ⟨rfl, rfl⟩
  | operand =>
    refine serves_bind (serves_plain plain ready.2) fun _ _ t read => ?_
    simp only [if_pos ready.1]
    exact serves_pure fun _ _ => ⟨rfl, rfl⟩
  | localVar =>
    obtain ⟨n, rfl, low, known⟩ := ready
    refine serves_bind (serves_plain plain known) fun _ _ t read => ?_
    refine serves_bind (serves_operandLocal operand low) ?_
    rintro _ le _ rfl
    refine serves_bind (serves_typed known) ?_
    rintro _ le' _ rfl
    exact serves_bind (serves_unify (.ofVariable _) (read.mono (le.trans le'))) fun _ _ _ _ =>
      serves_pure fun _ _ => ⟨rfl, rfl⟩

theorem slots_cons (e : Expr) (es : List Expr) :
    Expr.slots (e :: es) = Expr.slots [e] ++ Expr.slots es := by
  rw [← List.singleton_append, Expr.slots, List.filterMap_append, List.filter_append]
  rfl

theorem serves_arguments (plain : ∀ a ∈ found, a.1.IsPlain)
    (ready : ∀ a ∈ found, Ready ctx F value a.1 a.2)
    (typed : ∀ s ∈ slotsOf found, F.typed (some (slotType ctx s)) s.type)
    (operand : ctx.code.operands[f.pc]? = some value) :
    Serves ctx F names (arguments ctx value found) f f fun _ es =>
      (∀ e ∈ es, e.isSimple) ∧ Expr.slots es = (slotsOf found).map (slotVariable ctx) := by
  induction found generalizing names with
  | nil => exact serves_pure fun _ _ => ⟨nofun, rfl⟩
  | cons a found ih =>
    obtain ⟨here, later⟩ := List.forall_mem_cons.1 plain
    obtain ⟨now, others⟩ := List.forall_mem_cons.1 ready
    have first : ∀ s ∈ a.2.slot?, F.typed (some (slotType ctx s)) s.type := fun s slot =>
      typed s (List.mem_filterMap.2 ⟨a, .head _, slot⟩)
    have rest : ∀ s ∈ slotsOf found, F.typed (some (slotType ctx s)) s.type := by
      intro s member
      obtain ⟨b, among, slot⟩ := List.mem_filterMap.1 member
      exact typed s (List.mem_filterMap.2 ⟨b, .tail _ among, slot⟩)
    refine serves_bind (serves_argument here now first operand) fun _ _ e one => ?_
    refine serves_bind (ih later others rest) fun _ _ es rest => serves_pure fun _ _ => ?_
    refine ⟨List.forall_mem_cons.2 ⟨one.1, rest.1⟩, ?_⟩
    rw [slots_cons, one.2, rest.2, ← List.map_append, slotsOf, slotsOf, List.filterMap_cons]
    cases a.2.slot? <;> rfl

inductive Lands (ctx : Context) (f : Frame) (p : Prototype) :
    Destination → Variable → Frame → Prop where
  | stack : Lands ctx f p .stack (slotVariable ctx ⟨f.nextSlot, p.stack, none⟩)
      { f with stack := ⟨f.nextSlot, p.stack, none⟩ :: f.stack, nextSlot := f.nextSlot + 1 }
  | localVar {n : Int32} (operand : ctx.code.operands[f.pc]? = some (.int n))
      (low : 0 ≤ n.toInt) :
      Lands ctx f p .localVar (.localVar ctx.script n.toInt.toNat p.stack) f

inductive LandAll (ctx : Context) :
    Frame → List (Prototype × Destination) → List Variable → Frame → Prop where
  | nil (f : Frame) : LandAll ctx f [] [] f
  | cons {f f₁ f₂ : Frame} {d : Prototype × Destination} {v : Variable}
      {defs : List (Prototype × Destination)} {vs : List Variable}
      (one : Lands ctx f d.1 d.2 v f₁) (rest : LandAll ctx f₁ defs vs f₂) :
      LandAll ctx f (d :: defs) (v :: vs) f₂

variable {defs : List (Prototype × Destination)} {vs : List Variable}

theorem Lands.type_eq {destination : Destination} {v : Variable}
    (h : Lands ctx f p destination v f₁) : v.type = p.stack := by
  cases h <;> rfl

theorem serves_result {destination : Destination} {v : Variable}
    (lands : Lands ctx f p destination v f₁) (typed : F.typed (some (.ofVariable v)) v.type) :
    Serves ctx F names (result ctx p destination) f f₁ fun _ d => d = (v, .ofVariable v) := by
  cases lands with
  | stack =>
    refine serves_bind (serves_push p.stack none typed) ?_
    rintro _ _ _ rfl
    exact serves_pure fun _ _ => rfl
  | localVar operand low =>
    refine serves_bind (serves_operandLocal operand low) ?_
    rintro _ _ _ rfl
    refine serves_bind (serves_typed typed) ?_
    rintro _ _ _ rfl
    exact serves_pure fun _ _ => rfl

theorem serves_results (land : LandAll ctx f defs vs f₁)
    (typed : ∀ v ∈ vs, F.typed (some (.ofVariable v)) v.type) :
    Serves ctx F names (results ctx defs) f f₁ fun _ ds =>
      ds = vs.map fun v => (v, .ofVariable v) := by
  induction land generalizing names with
  | nil => exact serves_pure fun _ _ => rfl
  | cons one _ ih =>
    obtain ⟨here, others⟩ := List.forall_mem_cons.1 typed
    refine serves_bind (serves_result one here) ?_
    rintro _ _ _ rfl
    refine serves_bind (ih others) ?_
    rintro _ _ _ rfl
    exact serves_pure fun _ _ => rfl

theorem serves_pinnedAll (plain : ∀ d ∈ defs, d.1.IsPlain) (land : LandAll ctx f defs vs f₁)
    (typed : ∀ v ∈ vs, F.typed (some (.ofVariable v)) v.type) {g : Frame} :
    Serves ctx F names (defs.mapM fun d => pinned ctx d.1) g g fun names' ts =>
      List.Forall₂ (fun v t => ReadAs names' t (some (.ofVariable v))) vs ts := by
  induction land generalizing names with
  | nil => exact serves_pure fun _ _ => .nil
  | cons one _ ih =>
    obtain ⟨here, later⟩ := List.forall_mem_cons.1 plain
    obtain ⟨known, others⟩ := List.forall_mem_cons.1 typed
    rw [List.mapM_cons]
    refine serves_bind (serves_plain here (one.type_eq ▸ known)) fun _ _ t read => ?_
    refine serves_bind (ih later others) fun _ le ts rest => serves_pure fun _ le' => ?_
    exact .cons (read.mono (le.trans le')) (rest.imp fun _ _ h => h.mono le')

theorem serves_unifyAll {ts : List TypeVar}
    (read : List.Forall₂ (fun v t => ReadAs names t (some (.ofVariable v))) vs ts) :
    Serves ctx F names (unifyAll ((vs.map .ofVariable).zip ts)) f f fun _ _ => True := by
  induction read with
  | nil => exact serves_pure fun _ _ => trivial
  | cons one _ ih =>
    exact serves_bind (serves_unify (.ofVariable _) one) fun _ le _ _ => ih.later le

/-- A plain signature lifts where its arguments are ready and its results may go. -/
theorem serves_basic {s : Signature} {kept : List Slot}
    (args : s.args = found.map fun a => (a.1, a.2.source))
    (plain : (∀ a ∈ found, a.1.IsPlain) ∧ ∀ d ∈ s.defs, d.1.IsPlain)
    (operand : ctx.code.operands[f.pc]? = some value) (taken : s.usesOperand ∨ value = .int 0)
    (ready : ∀ a ∈ found, Ready ctx F value a.1 a.2)
    (stack : f.stack = (slotsOf found).reverse ++ kept)
    (land : LandAll ctx { f with stack := kept } s.defs vs f₁)
    (typed : ∀ v ∈ vs, F.typed (some (.ofVariable v)) v.type) :
    Serves ctx F names (basic ctx s) f f₁ fun _ i =>
      i.outline = ⟨.assign, vs.filter Variable.isStack,
        (slotsOf found).map (slotVariable ctx)⟩ := by
  have asked : Serves ctx F names (Lift.operand ctx) f f fun _ v => v = value :=
    serves_of_stays (fun g pc => comes_operand_iff.2 ⟨pc ▸ operand, rfl⟩) fun _ _ => rfl
  refine serves_bind asked ?_
  rintro _ _ value rfl
  have free : (!s.usesOperand && ctx.checkOperands && value != .int 0) = false := by
    rcases taken with uses | rfl
    · simp [uses]
    · simp
  rw [if_neg (by simp [free]), args]
  refine serves_of_typed fun known => ?_
  have onStack : ∀ s ∈ slotsOf found, F.typed (some (slotType ctx s)) s.type := fun s member =>
    known s (by simp [stack, member])
  have fit : ∀ p s, (p, .slot s) ∈ found → s.type = p.stack := fun p s member => ready _ member
  refine serves_bind (serves_inputs fit stack) ?_
  rintro _ _ _ rfl
  refine serves_bind (serves_arguments plain.1 ready onStack operand) fun _ _ es simple => ?_
  refine serves_bind (serves_pinnedAll plain.2 land typed) fun _ _ ts read => ?_
  refine serves_bind (serves_results land typed) ?_
  rintro _ le _ rfl
  have own : (vs.map fun v => (v, TypeVar.ofVariable v)).map Prod.snd = vs.map .ofVariable := by
    rw [List.map_map]
    rfl
  rw [own]
  refine serves_bind (serves_unifyAll (read.imp fun _ _ h => h.mono le)) fun _ _ _ _ =>
    serves_pure fun _ _ => ?_
  rw [Instruction.outline_op simple.1, simple.2, Expr.slots, List.map_map, List.filterMap_map]
  congr 2
  exact List.filterMap_some

end Lift

end ClientScript
