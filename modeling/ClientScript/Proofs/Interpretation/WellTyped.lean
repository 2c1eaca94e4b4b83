import ClientScript.Proofs.Interpretation.Outcome
import ClientScript.Proofs.Lift.AgreeingPositions

/-!
Types of emitted code. Whatever is merged, frozen or refused after a script was lifted, and even if
the script was broken off and interpreted again, what it asked for is done in the end. Main
statement: the code of every function is well typed in the store that a run ends with.
-/
namespace ClientScript

namespace Expr

theorem typeVars_of_mem_inputs {e a : Expr} (input : a ∈ e.inputs) : a.typeVars ⊆ e.typeVars := by
  intro t member
  cases e with
  | op | call =>
    exact List.mem_append_right _ (typeVarsAll_eq _ ▸ List.mem_flatMap.2 ⟨a, input, member⟩)
  | hook opcode script arguments triggers dot component =>
    simp only [inputs, List.mem_append, Option.mem_toList] at input
    simp only [typeVars, typeVarsAll_eq, List.mem_append, List.mem_flatMap]
    rcases input with (argument | trigger) | target
    · exact .inl (.inl ⟨a, argument, member⟩)
    · exact .inl (.inr ⟨a, trigger, member⟩)
    · obtain rfl : component = some a := target
      exact .inr member
  | _ => simp [inputs] at input

end Expr

namespace Instruction

theorem typeVars_eq (i : Instruction) :
    i.typeVars = (i.definitions ++ i.operands).flatMap Expr.typeVars := by
  cases i <;> simp [typeVars, definitions, operands, Expr.typeVarsAll_eq]

theorem Flat.mem_typeVars {i : Instruction} (h : i.Flat) {v : Variable} {t : TypeVar}
    (part : .var v t ∈ i.parts) : t ∈ i.typeVars := by
  rw [typeVars_eq, List.mem_flatMap]
  rcases List.mem_append.1 (h.mem_parts part) with direct | input
  · exact ⟨_, direct, List.mem_singleton_self t⟩
  · obtain ⟨e, evaluated, inside⟩ := List.mem_flatMap.1 input
    exact ⟨e, List.mem_append_right _ evaluated,
      Expr.typeVars_of_mem_inputs inside (List.mem_singleton_self t)⟩

end Instruction

namespace FunctionSet

/-- A reference goes by the type variable of its variable, whose class is on its stack. -/
structure ReferenceFits (set : FunctionSet) (v : Variable) (t : TypeVar) : Prop where
  own : t = .ofVariable v
  onStack : ∃ c, set.typings.cell? t = some c ∧ set.typings.stackOf c = v.type

structure AssignmentFits (set : FunctionSet) (definitions : List Expr) (e : Expr) : Prop where
  types : List.Forall₂ (fun d u => ∃ v t, d = .var v t ∧ set.typings.sameType t u) definitions
    e.typings
  onStack : List.Forall₂ (fun d stack => ∃ v t, d = .var v t ∧ v.type = stack) definitions
    e.stackTypes

inductive ComparisonFits (set : FunctionSet) : Expr → Prop where
  | intro (opcode : Opcode) {a b : Expr} {t u : TypeVar} (left : a.typings = [t])
      (right : b.typings = [u]) (same : set.typings.sameType t u) :
      ComparisonFits set (.op opcode [a, b] [] [] false)

/-- An argument is a variable of the declared type, or of any type if that is the integer, which
    other types narrow. -/
def ArgumentFits (set : FunctionSet) (p : Prototype) (e : Expr) : Prop :=
  ∃ v t c, e = .var v t ∧ set.typings.cell? t = some c ∧
    (p.type ∈ set.typings.typesOf c ∨ p.type = .int ∧ set.typings.typesOf c ≠ [])

/-- The operation of a signature on arguments of the declared types; the operand needs none. -/
inductive OperationFits (set : FunctionSet) (s : Signature) : Instruction → Prop where
  | intro (definitions : List Expr) {arguments : List Expr} (typings : List TypeVar) (dot : Bool)
      (fit : List.Forall₂ (fun a e => a.2 ≠ .operand → set.ArgumentFits a.1 e) s.args arguments) :
      OperationFits set s (.assign definitions
        (.op s.opcode arguments (s.defs.map (·.1.stack)) typings dot))

structure WellTyped (set : FunctionSet) (insns : List Instruction) : Prop where
  known : ∀ t ∈ insns.flatMap Instruction.typeVars,
    ∃ c, set.typings.cell? t = some c ∧ c < set.typings.size
  references : ∀ i ∈ insns, ∀ v t, .var v t ∈ i.parts → set.ReferenceFits v t
  assignments : ∀ definitions e, .assign definitions e ∈ insns →
    definitions = [] ∨ set.AssignmentFits definitions e
  comparisons : ∀ condition l, .branch condition l ∈ insns → set.ComparisonFits condition

end FunctionSet

namespace Setting

open Typings

variable {g : Setting} {s : Stores} {done : Set Request} {id : Int32} {f : Function} {t : TypeVar}

theorem Explains.inside (h : g.Explains done s) {script : Int32} (lifted : g.Lifts script f)
    (did : ∀ e ∈ g.effectsOf script, (script, e) ∈ done) (member : t ∈ f.typeVars) :
    ∃ c, s.typings.cell? t = some c ∧ s.typings.named t = some c ∧ c < s.typings.size := by
  obtain ⟨name, typed⟩ := typed_of_lifts h lifted did member
  obtain ⟨c, cell⟩ : ∃ c, s.typings.cell? t = some c := by
    simpa [typeOf?, Option.isSome_iff_exists] using typed
  have named := (cell?_eq_named name).symm.trans cell
  exact ⟨c, cell, named, h.describes.inside t c named⟩

theorem Explains.stackOf_variable (h : g.Explains done s) {v : Variable} {c : Nat}
    (named : s.typings.named (.ofVariable v) = some c) : s.typings.stackOf c = v.type := by
  obtain ⟨⟨script, e⟩, member, puts⟩ := h.describes.typed_of_cell named
  obtain ⟨_, _, _, _, _, follows⟩ := follows_of_whole (h.within member)
  cases e with
  | declare u stack types =>
    obtain ⟨rfl, onStack⟩ := puts
    rcases follows.of_declare with ⟨w, same, declared, -⟩ | ⟨n, pin, other, -⟩
    · obtain rfl : v = w := TypeVar.ofVariable.inj same
      exact onStack.trans declared
    · simp at other
  | results callee types =>
    obtain ⟨slot, other, -⟩ := puts
    simp at other
  | _ => exact puts.elim

/-- What is unified with something declared of a type has that type, unless it is the integer,
    which any other type narrows. -/
theorem Explains.pinned (h : g.Explains done s) (did : ∀ e ∈ g.effectsOf id, (id, e) ∈ done)
    {u : TypeVar} {stack : StackType} {pin : ValueType} (asked : .unify t u ∈ g.effectsOf id)
    (declared : .declare u stack [pin] ∈ g.effectsOf id) : ∃ c, s.typings.cell? t = some c ∧
      (pin ∈ s.typings.typesOf c ∨ pin = .int ∧ s.typings.typesOf c ≠ []) := by
  obtain ⟨same, ⟨c, cell, named⟩, -⟩ := h.unified did asked
  have held : pin ∈ (factsOf done).held t :=
    ⟨u, same, _, did _ declared, rfl, List.mem_singleton_self pin⟩
  have form := h.describes.types t c named
  refine ⟨c, cell, ?_⟩
  by_cases weak : pin = .int
  · refine .inr ⟨weak, fun none => ?_⟩
    rw [none] at form
    exact Set.notMem_empty pin (form.eq_empty ▸ held)
  · exact .inl (form.mem_of_ne held weak)

theorem Explains.referenceFits (h : g.Explains done s) (lifted : g.Lifts id f)
    (did : ∀ e ∈ g.effectsOf id, (id, e) ∈ done) {i : Instruction}
    (member : i ∈ f.code.instructions) (flat : i.Flat) (agrees : i.Agrees (g.effectsOf id))
    {v : Variable} (part : .var v t ∈ i.parts) :
    (FunctionSet.ofStores s).ReferenceFits v t := by
  obtain rfl := agrees.own _ (flat.mem_parts part) v t rfl
  have among : .ofVariable v ∈ f.typeVars := List.mem_append_right _
    (List.mem_flatMap.2 ⟨i, member, flat.mem_typeVars part⟩)
  obtain ⟨c, cell, named, -⟩ := h.inside lifted did among
  exact ⟨rfl, c, cell, h.stackOf_variable named⟩

theorem Explains.assignmentFits (h : g.Explains done s)
    (did : ∀ e ∈ g.effectsOf id, (id, e) ∈ done) {definitions : List Expr} {e : Expr}
    (assigned : Instruction.Assigned (g.effectsOf id) definitions e) :
    (FunctionSet.ofStores s).AssignmentFits definitions e := by
  refine ⟨assigned.unified.imp fun d u joined => ?_, assigned.onStack⟩
  obtain ⟨v, t, eq, asked⟩ := joined
  exact ⟨v, t, eq, h.sameType did asked⟩

theorem Explains.comparisonFits (h : g.Explains done s)
    (did : ∀ e ∈ g.effectsOf id, (id, e) ∈ done) {condition : Expr}
    (compared : Instruction.Compared (g.effectsOf id) condition) :
    (FunctionSet.ofStores s).ComparisonFits condition := by
  cases compared with
  | intro opcode left right asked => exact .intro opcode left right (h.sameType did asked)

theorem Explains.operationFits (h : g.Explains done s)
    (did : ∀ e ∈ g.effectsOf id, (id, e) ∈ done) {signature : Signature} {i : Instruction}
    (declared : i.Declared (g.effectsOf id) signature) :
    (FunctionSet.ofStores s).OperationFits signature i := by
  cases declared with
  | intro definitions typings dot pinned =>
    refine .intro definitions typings dot (pinned.imp fun a e fits other => ?_)
    obtain ⟨v, t, u, eq, asked, pin⟩ := fits other
    obtain ⟨c, cell, types⟩ := h.pinned did asked pin
    exact ⟨v, t, c, eq, cell, types⟩

end Setting

namespace Sample

/-- The argument of script 0 is an object where its cost is looked up, and an integer where a random
    number is drawn below it. -/
def pricing : Setting :=
  .of (IntMap.insert .empty 0 (.ofLines [.arguments 1 0, .returns [.int],
      .op .pushIntLocal (.int 0), .op .ocCost (.int 0), .op .pushIntLocal (.int 0),
      .op .random (.int 0), .jump .branchLessThan 7, .pushInt 0, .op .ret (.int 0), .pushInt 1,
      .op .ret (.int 0)]))
    .none .default

end Sample

end ClientScript
