import ClientScript.Proofs.Lift.Trace

/-!
What a lifted instruction agrees with. A variable is referred to by its own type variable, what an
assignment defines is unified with what its expression gives, one by one and on the same stacks, the
operands of a comparison are unified, and the arguments of a declarative command with type variables
of the declared types. Main statement: every position has such an instruction.
-/
namespace ClientScript

namespace Expr

def Own (e : Expr) : Prop := ∀ v t, e = .var v t → t = .ofVariable v

@[simp]
theorem own_var {v : Variable} {t : TypeVar} : (var v t).Own ↔ t = .ofVariable v := by
  constructor
  · exact fun h => h v t rfl
  · rintro own _ _ ⟨⟩
    exact own

theorem own_of_not_isVar {e : Expr} (other : e.isVar = false) : e.Own := by
  rintro v t rfl
  simp [isVar] at other

@[simp]
theorem own_const {c : Value} {t : TypeVar} : (const c t).Own := own_of_not_isVar rfl

@[simp]
theorem own_op {opcode : Opcode} {arguments : List Expr} {results : List StackType}
    {typings : List TypeVar} {dot : Bool} : (op opcode arguments results typings dot).Own :=
  own_of_not_isVar rfl

@[simp]
theorem own_call {opcode : Opcode} {script : Int32} {arguments : List Expr}
    {results : List StackType} {typings : List TypeVar} :
    (call opcode script arguments results typings).Own :=
  own_of_not_isVar rfl

@[simp]
theorem own_hook {opcode : Opcode} {script : Int32} {arguments triggers : List Expr} {dot : Bool}
    {component : Option Expr} : (hook opcode script arguments triggers dot component).Own :=
  own_of_not_isVar rfl

end Expr

namespace Instruction

variable (es : List Effect)

structure Assigned (definitions : List Expr) (e : Expr) : Prop where
  unified : List.Forall₂ (fun d u => ∃ v t, d = .var v t ∧ .unify t u ∈ es) definitions e.typings
  onStack : List.Forall₂ (fun d stack => ∃ v t, d = .var v t ∧ v.type = stack) definitions
    e.stackTypes

inductive Compared : Expr → Prop where
  | intro (opcode : Opcode) {a b : Expr} {t u : TypeVar} (left : a.typings = [t])
      (right : b.typings = [u]) (unified : .unify t u ∈ es) :
      Compared (.op opcode [a, b] [] [] false)

def Matched : Instruction → Prop
  | .assign definitions e => definitions = [] ∨ Assigned es definitions e
  | .branch condition _ => Compared es condition
  | _ => True

structure Agrees (i : Instruction) : Prop where
  own : ∀ e ∈ i.definitions ++ i.operands ++ i.operands.flatMap Expr.inputs, e.Own
  matched : i.Matched es

def Pinned (p : Prototype) (e : Expr) : Prop :=
  ∃ v t u, e = .var v t ∧ .unify t u ∈ es ∧ .declare u p.stack [p.type] ∈ es

/-- The operation of a signature, each argument of which is pinned to what the signature declares,
    unless it is the operand. -/
inductive Declared (s : Signature) : Instruction → Prop where
  | intro (definitions : List Expr) {arguments : List Expr} (typings : List TypeVar) (dot : Bool)
      (pinned : List.Forall₂ (fun a e => a.2 ≠ .operand → Pinned es a.1 e) s.args arguments) :
      Declared s (.assign definitions
        (.op s.opcode arguments (s.defs.map (·.1.stack)) typings dot))

variable {es}

theorem agrees_assign {definitions : List Expr} {e : Expr} (own : ∀ d ∈ definitions, d.Own)
    (itself : e.Own) (inputs : ∀ a ∈ e.inputs, a.Own)
    (assigned : definitions = [] ∨ Assigned es definitions e) :
    (assign definitions e).Agrees es := by
  refine ⟨?_, assigned⟩
  simpa [Instruction.definitions, operands, or_imp, forall_and] using ⟨own, itself, inputs⟩

theorem flat_label (l : Label) : (label l).Flat :=
  ⟨by simp [definitions], by simp [operands], by simp [operands]⟩

theorem agrees_label (l : Label) : (label l).Agrees es :=
  ⟨by simp [definitions, operands], trivial⟩

theorem Flat.mem_parts {i : Instruction} (h : i.Flat) {p : Expr} (part : p ∈ i.parts) :
    p ∈ i.definitions ++ i.operands ++ i.operands.flatMap Expr.inputs := by
  obtain ⟨whole, among, inside⟩ := List.mem_flatMap.1 part
  rw [Expr.parts_eq] at inside
  rcases List.mem_append.1 among with defined | evaluated
  · have var := h.definitions whole defined
    cases whole <;> simp_all [Expr.isVar, Expr.inputs, Expr.partsAll]
  · rw [Expr.partsAll_of_isSimple (h.inputs whole evaluated)] at inside
    rcases List.mem_cons.1 inside with rfl | input
    · exact List.mem_append_left _ among
    · exact List.mem_append_right _ (List.mem_flatMap.2 ⟨whole, evaluated, input⟩)

end Instruction

namespace Lift

/-- What a lift gives satisfies a condition if all that was asked for by then is among some
    effects. -/
def Yields {α : Type} (es : List Effect) (m : Lift α) (Q : α → Prop) : Prop :=
  ∀ f a f', Comes m f a f' → f.effects ⊆ f'.effects ∧ (f'.effects ⊆ es → Q a)

variable {α β : Type} {es : List Effect} {m : Lift α} {Q : α → Prop} {ctx : Context}

theorem yields_pure {a : α} (h : Q a) : Yields es (pure a) Q := by
  intro f b f' comes
  obtain ⟨rfl, rfl⟩ := comes_pure.1 comes
  exact ⟨List.Subset.refl _, fun _ => h⟩

/-- What is known of the first part may be used for the whole. -/
theorem yields_bind {k : α → Lift β} {R : β → Prop} (first : Yields es m Q)
    (later : ∀ a, Yields es (k a) fun b => Q a → R b) : Yields es (m >>= k) R := by
  intro f b f' comes
  obtain ⟨a, f₁, one, rest⟩ := comes_bind.1 comes
  obtain ⟨grown, known⟩ := first f a f₁ one
  obtain ⟨grown', known'⟩ := later a f₁ b f' rest
  exact ⟨List.Subset.trans grown grown', fun all =>
    known' all (known (List.Subset.trans grown' all))⟩

theorem Yields.imp {R : α → Prop} (h : Yields es m Q) (le : ∀ a, Q a → R a) : Yields es m R :=
  fun f a f' comes => ⟨(h f a f' comes).1, fun all => le a ((h f a f' comes).2 all)⟩

theorem yields_then {k : α → Lift β} {R : β → Prop} (first : Yields es m Q)
    (later : ∀ a, Yields es (k a) R) : Yields es (m >>= k) R :=
  yields_bind first fun a => (later a).imp fun _ known _ => known

theorem yields_of_not {Q : α → Prop} (never : ∀ {f a f'}, ¬ Comes m f a f') : Yields es m Q :=
  fun _ _ _ comes => absurd comes never

theorem yields_throw (e : Failure) : Yields es (throw e : Lift α) Q :=
  yields_of_not not_comes_throw

theorem yields_malformed (cause : Malformation) : Yields es (malformed ctx cause : Lift α) Q :=
  yields_of_not not_comes_malformed

theorem yields_imbalance (cause : Imbalance) : Yields es (imbalance ctx cause : Lift α) Q :=
  yields_of_not not_comes_imbalance

theorem yields_defect (d : Defect) : Yields es (defect ctx d : Lift α) Q :=
  yields_of_not not_comes_defect

theorem yields_of_moved (moves : ∀ {f a f'}, Comes m f a f' →
    ∃ taken put asked, Moved f f' taken put asked ∧ (asked ⊆ es → Q a)) : Yields es m Q := by
  intro f a f' comes
  obtain ⟨taken, put, asked, moved, known⟩ := moves comes
  rw [moved.effects]
  exact ⟨List.subset_append_left _ _, fun all => known fun e member =>
    all (List.mem_append_right _ member)⟩

theorem yields_of_stays (stays : ∀ {f a f'}, Comes m f a f' → f' = f) :
    Yields es m fun _ => True :=
  fun _ _ _ comes => ⟨by rw [stays comes]; exact List.Subset.refl _, fun _ => trivial⟩

theorem yields_mapM {g : β → Lift α} {R : β → α → Prop} (each : ∀ b, Yields es (g b) (R b))
    (bs : List β) : Yields es (bs.mapM g) (List.Forall₂ R bs) := by
  induction bs with
  | nil => exact yields_pure .nil
  | cons b bs ih =>
    rw [List.mapM_cons]
    exact yields_bind (each b) fun a => yields_bind ih fun as =>
      yields_pure fun others here => .cons here others

theorem yields_forM {g : β → Lift PUnit} {bs : List β} {R : β → Prop}
    (each : ∀ b, Yields es (g b) fun _ => R b) :
    Yields es (bs.forM g) fun _ => ∀ b ∈ bs, R b := by
  induction bs with
  | nil => exact yields_pure nofun
  | cons b bs ih =>
    refine yields_bind (each b) fun _ => ih.imp fun _ others here => ?_
    exact List.forall_mem_cons.2 ⟨here, others⟩

theorem yields_emit (e : Effect) : Yields es (emit e) fun _ => e ∈ es :=
  yields_of_moved fun h => ⟨_, _, _, moved_emit h, fun all => all (List.mem_singleton_self e)⟩

theorem yields_unify (a b : TypeVar) : Yields es (unify a b) fun _ => .unify a b ∈ es :=
  yields_emit _

theorem yields_unifyAll (pairs : List (TypeVar × TypeVar)) :
    Yields es (unifyAll pairs) fun _ => ∀ p ∈ pairs, .unify p.1 p.2 ∈ es :=
  yields_of_moved fun h => ⟨_, _, _, moved_unifyAll h, fun all p member =>
    all (List.mem_map.2 ⟨p, member, rfl⟩)⟩

theorem yields_nameless (stack : StackType) (types : List ValueType) :
    Yields es (nameless ctx stack types) fun t => .declare t stack types ∈ es :=
  yields_of_moved fun h => ⟨_, _, _, moved_nameless h, fun all => all (List.mem_singleton_self _)⟩

theorem yields_pinned (p : Prototype) :
    Yields es (pinned ctx p) fun t => .declare t p.stack [p.type] ∈ es :=
  yields_nameless p.stack [p.type]

theorem yields_typed (v : Variable) : Yields es (typed v) (· = .ofVariable v) :=
  yields_of_moved fun h => ⟨_, _, _, (moved_typed h).2, fun _ => (moved_typed h).1⟩

theorem yields_push (type : StackType) (constant : Option Value) :
    Yields es (push ctx type constant) (·.type = type) :=
  yields_of_moved fun h => ⟨_, _, _, (moved_push h).2.2, fun _ => (moved_push h).1⟩

theorem yields_pushAll (types : List StackType) :
    Yields es (pushAll ctx types) (·.map Slot.type = types) :=
  yields_of_moved fun h => ⟨_, _, _, (moved_pushAll h).2, fun _ => (moved_pushAll h).1⟩

theorem yields_pop (type : StackType) : Yields es (pop ctx type) (·.type = type) :=
  yields_of_moved fun h => ⟨_, _, _, (moved_pop h).2, fun _ => (moved_pop h).1⟩

theorem yields_popMany (count : Nat) : Yields es (popMany ctx count) fun _ => True :=
  yields_of_moved fun h => ⟨_, _, _, (moved_popMany h).2, fun _ => trivial⟩

theorem yields_popAll : Yields es popAll fun _ => True :=
  yields_of_moved fun h => ⟨_, _, _, (moved_popAll h).2, fun _ => trivial⟩

theorem yields_popStrings (count : Nat) : Yields es (popStrings ctx count) fun _ => True :=
  yields_of_moved fun h => ⟨_, _, _, moved_popStrings h, fun _ => trivial⟩

theorem yields_popAs (p : Prototype) :
    Yields es (popAs ctx p) fun e => ∃ s, e = slotExpr ctx s ∧ s.type = p.stack :=
  yields_of_moved fun h => by
    obtain ⟨s, asked, rfl, type, moved⟩ := moved_popAs h
    exact ⟨_, _, _, moved, fun _ => ⟨s, rfl, type⟩⟩

theorem yields_popInt : Yields es (popInt ctx) fun _ => True :=
  yields_of_moved fun h => by
    obtain ⟨s, -, moved⟩ := moved_popInt h
    exact ⟨_, _, _, moved, fun _ => trivial⟩

theorem yields_popText : Yields es (popText ctx) fun _ => True :=
  yields_of_moved fun h => by
    obtain ⟨s, -, moved⟩ := moved_popText h
    exact ⟨_, _, _, moved, fun _ => trivial⟩

theorem yields_stored (storage : Storage) :
    Yields es (stored ctx storage) (·.type = storage.stack) := by
  unfold stored
  refine yields_then (yields_of_stays stays_intOperand) fun operand => ?_
  cases member : storage.member? ctx.script operand with
  | none => exact yields_malformed _
  | some v => exact yields_pure (Storage.type_of_member? member)

end Lift

end ClientScript
