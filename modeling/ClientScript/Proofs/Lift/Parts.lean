import ClientScript.Proofs.Lift.Motion

/-!
Parts of instructions. An instruction reads the variables in its operands and writes those it
defines. Lifted instructions are flat: the arguments of an expression are single values, and a call
or a hook is all that an assignment assigns. What is read from the operand stack was taken off it.
-/
namespace ClientScript

namespace Expr

def isSimple : Expr → Bool
  | .var .. | .const .. | .pointer _ | .event _ => true
  | .op .. | .call .. | .hook .. => false

def isRequest : Expr → Bool
  | .call .. | .hook .. => true
  | _ => false

def inputs : Expr → List Expr
  | .op _ arguments _ _ _ | .call _ _ arguments _ _ => arguments
  | .hook _ _ arguments triggers _ component => arguments ++ triggers ++ component.toList
  | _ => []

mutual

def parts : Expr → List Expr
  | .op opcode arguments results typings dot =>
    .op opcode arguments results typings dot :: partsAll arguments
  | .call opcode script arguments results typings =>
    .call opcode script arguments results typings :: partsAll arguments
  | .hook opcode script arguments triggers dot component =>
    .hook opcode script arguments triggers dot component ::
      (partsAll arguments ++ partsAll triggers ++ partsOpt component)
  | e => [e]

def partsAll : List Expr → List Expr
  | [] => []
  | e :: es => parts e ++ partsAll es

def partsOpt : Option Expr → List Expr
  | none => []
  | some e => parts e

end

theorem partsAll_append (es es' : List Expr) :
    partsAll (es ++ es') = partsAll es ++ partsAll es' := by
  induction es with
  | nil => rfl
  | cons e es ih => rw [List.cons_append, partsAll, partsAll, ih, List.append_assoc]

theorem parts_eq (e : Expr) : e.parts = e :: partsAll e.inputs := by
  cases e with
  | hook _ _ arguments triggers _ component =>
    cases component <;> simp [parts, inputs, partsAll_append, partsAll, partsOpt]
  | _ => simp [parts, inputs, partsAll]

theorem inputs_of_isSimple {e : Expr} (simple : e.isSimple) : e.inputs = [] := by
  cases e <;> simp_all [isSimple, inputs]

theorem partsAll_of_isSimple {es : List Expr} (simple : ∀ e ∈ es, e.isSimple) :
    partsAll es = es := by
  induction es with
  | nil => rfl
  | cons e es ih =>
    have rest := ih fun e' member => simple e' (List.mem_cons_of_mem _ member)
    rw [partsAll, parts_eq, inputs_of_isSimple (simple e (by simp)), rest]
    rfl

def typingsOn (stack : StackType) (es : List Expr) : List TypeVar :=
  es.filterMap fun
    | .var v t => if v.type = stack then some t else none
    | _ => none

end Expr

namespace Instruction

def operands : Instruction → List Expr
  | .assign _ e | .branch e _ | .switch e _ => [e]
  | .ret values => values
  | .goto _ | .label _ => []

def definitions : Instruction → List Expr
  | .assign definitions _ => definitions
  | _ => []

def parts (i : Instruction) : List Expr := (i.definitions ++ i.operands).flatMap Expr.parts

def reads (i : Instruction) : List Variable :=
  (i.operands.flatMap Expr.parts).filterMap Expr.location?

def writes (i : Instruction) : List Variable := i.definitions.filterMap Expr.location?

/-- Definitions are variables and inputs single values, and only an assignment evaluates a call or
    a hook. -/
structure Flat (i : Instruction) : Prop where
  definitions : ∀ d ∈ i.definitions, d.isVar
  inputs : ∀ e ∈ i.operands, ∀ a ∈ e.inputs, a.isSimple
  assigned : ∀ e ∈ i.operands, e.isRequest → ∃ ds, i = .assign ds e

theorem Flat.eq_assign {i : Instruction} (h : i.Flat) {e : Expr} (part : e ∈ i.parts)
    (request : e.isRequest) : ∃ ds, i = .assign ds e := by
  obtain ⟨whole, among, inside⟩ := List.mem_flatMap.1 part
  rcases List.mem_append.1 among with defined | evaluated
  · have var := h.definitions whole defined
    cases whole <;> simp_all [Expr.isVar, Expr.parts, Expr.isRequest]
  · rw [Expr.parts_eq, Expr.partsAll_of_isSimple (h.inputs whole evaluated)] at inside
    rcases List.mem_cons.1 inside with rfl | input
    · exact h.assigned _ evaluated request
    · have simple := h.inputs whole evaluated e input
      cases e <;> simp_all [Expr.isSimple, Expr.isRequest]

theorem Flat.reads_eq {i : Instruction} (h : i.Flat) :
    i.reads = (i.operands.flatMap fun e => e :: e.inputs).filterMap Expr.location? := by
  rw [reads]
  congr 1
  refine List.flatMap_congr fun e evaluated => ?_
  rw [Expr.parts_eq, Expr.partsAll_of_isSimple (h.inputs e evaluated)]

end Instruction

namespace Lift

variable (ctx : Context)

/-- Single values, the stack slots among which were all taken, each as often at least. -/
structure Gathered (taken : List Slot) (es : List Expr) : Prop where
  simple : ∀ e ∈ es, e.isSimple
  reads : ∀ v : Variable, v.isStack →
    (es.filterMap Expr.location?).count v ≤ (taken.map (slotVariable ctx)).count v

/-- An instruction reads slots that were taken and writes those that were put. -/
structure Uses (taken put : List Slot) (i : Instruction) : Prop where
  flat : i.Flat
  reads : ∀ v : Variable, v.isStack → i.reads.count v ≤ (taken.map (slotVariable ctx)).count v
  writes : i.writes.filter Variable.isStack = put.map (slotVariable ctx)

variable {ctx} {taken taken' put : List Slot} {es es' : List Expr}

theorem location_slots (slots : List Slot) :
    (slots.map (slotExpr ctx)).filterMap Expr.location? = slots.map (slotVariable ctx) := by
  rw [List.filterMap_map]
  exact congrFun (List.filterMap_eq_map (f := slotVariable ctx)) slots

theorem gathered_nil (taken : List Slot) : Gathered ctx taken [] := ⟨by simp, by simp⟩

theorem gathered_slots (slots : List Slot) : Gathered ctx slots (slots.map (slotExpr ctx)) := by
  constructor
  · intro e member
    obtain ⟨s, -, rfl⟩ := List.mem_map.1 member
    rfl
  · intro v _
    exact Nat.le_of_eq (congrArg (List.count v) (location_slots slots))

theorem gathered_reverse (slots : List Slot) :
    Gathered ctx slots.reverse (slots.map (slotExpr ctx)) := by
  have h : Gathered ctx slots (slots.map (slotExpr ctx)) := gathered_slots slots
  refine ⟨h.simple, fun v onStack => ?_⟩
  rw [List.map_reverse, List.count_reverse]
  exact h.reads v onStack

theorem Gathered.append (h : Gathered ctx taken es) (h' : Gathered ctx taken' es') :
    Gathered ctx (taken ++ taken') (es' ++ es) := by
  constructor
  · intro e member
    rcases List.mem_append.1 member with left | right
    · exact h'.simple e left
    · exact h.simple e right
  · intro v onStack
    rw [List.filterMap_append, List.count_append, List.map_append, List.count_append, Nat.add_comm]
    exact Nat.add_le_add (h.reads v onStack) (h'.reads v onStack)

theorem gathered_other {e : Expr} (simple : e.isSimple)
    (other : ∀ v, e.location? = some v → v.isStack = false) : Gathered ctx [] [e] := by
  constructor
  · intro e' member
    rw [List.mem_singleton.1 member]
    exact simple
  · intro v onStack
    cases location : e.location? with
    | none => simp [location]
    | some u =>
      have ne : u ≠ v := by
        rintro rfl
        simp [other u location] at onStack
      simp [location, ne]

theorem uses_computed {definitions : List Expr} {e : Expr}
    (vars : ∀ d ∈ definitions, d.isVar) (computed : e.isSimple = false)
    (gathered : Gathered ctx taken e.inputs)
    (writes : (definitions.filterMap Expr.location?).filter Variable.isStack =
      put.map (slotVariable ctx)) : Uses ctx taken put (.assign definitions e) := by
  have flat : (Instruction.assign definitions e).Flat := by
    refine ⟨vars, ?_, ?_⟩
    · rintro _ (_ | ⟨_, ⟨⟩⟩)
      exact gathered.simple
    · rintro _ (_ | ⟨_, ⟨⟩⟩) _
      exact ⟨_, rfl⟩
  refine ⟨flat, fun v onStack => ?_, writes⟩
  have itself : e.location? = none := by
    cases e <;> simp_all [Expr.isSimple, Expr.location?]
  rw [flat.reads_eq]
  simpa [Instruction.operands, itself] using gathered.reads v onStack

theorem uses_plain {i : Instruction} (vars : ∀ d ∈ i.definitions, d.isVar)
    (gathered : Gathered ctx taken i.operands)
    (writes : i.writes.filter Variable.isStack = put.map (slotVariable ctx)) :
    Uses ctx taken put i := by
  have flat : i.Flat := by
    refine ⟨vars, fun e evaluated a input => ?_, fun e evaluated request => ?_⟩
    · rw [Expr.inputs_of_isSimple (gathered.simple e evaluated)] at input
      simp at input
    · have simple := gathered.simple e evaluated
      cases e <;> simp_all [Expr.isSimple, Expr.isRequest]
  refine ⟨flat, fun v onStack => ?_, writes⟩
  have alone : (i.operands.flatMap fun e => e :: e.inputs) = i.operands.flatMap fun e => [e] :=
    List.flatMap_congr fun e evaluated => by
      rw [Expr.inputs_of_isSimple (gathered.simple e evaluated)]
  rw [flat.reads_eq, alone, List.flatMap_singleton']
  exact gathered.reads v onStack

theorem uses_branch {opcode : Opcode} {results : List StackType} {typings : List TypeVar}
    {dot : Bool} {target : Label} (gathered : Gathered ctx taken es) :
    Uses ctx taken [] (.branch (.op opcode es results typings dot) target) := by
  have flat : (Instruction.branch (.op opcode es results typings dot) target).Flat := by
    refine ⟨by simp [Instruction.definitions], ?_, ?_⟩
    · rintro _ (_ | ⟨_, ⟨⟩⟩)
      exact gathered.simple
    · rintro _ (_ | ⟨_, ⟨⟩⟩) request
      simp [Expr.isRequest] at request
  refine ⟨flat, fun v onStack => ?_, rfl⟩
  rw [flat.reads_eq]
  simpa [Instruction.operands, List.filterMap_cons, Expr.location?, Expr.inputs] using
    gathered.reads v onStack

theorem writes_slots (slots : List Slot) :
    ((slots.map (slotExpr ctx)).filterMap Expr.location?).filter Variable.isStack =
      slots.map (slotVariable ctx) := by
  rw [location_slots, List.filter_eq_self]
  intro v member
  obtain ⟨s, -, rfl⟩ := List.mem_map.1 member
  rfl

theorem vars_slots (slots : List Slot) : ∀ d ∈ slots.map (slotExpr ctx), d.isVar := by
  intro d member
  obtain ⟨s, -, rfl⟩ := List.mem_map.1 member
  rfl

theorem uses_slots {e : Expr} (computed : e.isSimple = false)
    (gathered : Gathered ctx taken e.inputs) (slots : List Slot) :
    Uses ctx taken slots (.assign (slots.map (slotExpr ctx)) e) :=
  uses_computed (vars_slots slots) computed gathered (writes_slots slots)

end Lift

end ClientScript
