import ClientScript.Proofs.Interpretation.Outcome
import ClientScript.Proofs.Lift.Trace

/-!
Types across the boundaries of scripts. What a script passes to another one and takes from it is of
one type on both sides, in whatever order the two were interpreted. Main statement: in the end that
holds of every call and every hook of every function.
-/
namespace ClientScript

namespace FunctionSet

/-- The slots a call passes are typed as the locals of the callee, kind by kind, and its results as
    what it defines and as what the callee returns. -/
structure CallFits (set : FunctionSet) (callee : Int32) (definitions arguments : List Expr)
    (typings : List TypeVar) : Prop where
  arguments : ∀ (stack : StackType) (n : Nat) (t : TypeVar),
    (Expr.typingsOn stack arguments)[n]? = some t →
      set.typings.sameType (.ofVariable (.localVar callee n stack)) t
  definitions : List.Forall₂ (fun d u => ∃ v t, d = .var v t ∧ set.typings.sameType t u)
    definitions typings
  returned : ∀ f, set.functions.get? callee = some f → ∀ values,
    .ret values ∈ f.code.instructions →
      List.Forall₂ (fun e u => ∃ v t, e = .var v t ∧ set.typings.sameType u t) values typings

/-- The variables a hook passes are typed as the locals of the handler, which have the described
    types; the integer is no more than a type of the stack. -/
structure HookFits (set : FunctionSet) (handler : Int32) (arguments : List Expr)
    (types : List ValueType) : Prop where
  count : arguments.length = types.length
  parameters : 0 ≤ handler.toInt → ∀ i t, types[i]? = some t → ∃ p,
    p = Variable.localVar handler (((types.map ValueType.stack).take i).count t.stack) t.stack ∧
      (∀ v u, arguments[i]? = some (.var v u) → set.typings.sameType u (.ofVariable p)) ∧
      (t ≠ .int → ∃ c, set.typings.cell? (.ofVariable p) = some c ∧ t ∈ set.typings.typesOf c)

end FunctionSet

namespace Setting

open Lift

variable {g : Setting} {s : Stores} {done : Set Request} {id : Int32} {f : Function}

theorem Lifts.shape {code : Script} (lifts : g.Lifts id f)
    (found : g.scripts.get? id = some code) :
    f.arguments.map Variable.type = code.arguments ∧ f.returns = code.returns := by
  obtain ⟨code', found', lifted⟩ := lifts
  obtain rfl : code' = code := Option.some.inj (found'.symm.trans found)
  obtain ⟨insns, F, -, -, rfl, -⟩ := Context.positions_of_lift lifted
  exact ⟨Variable.map_type_parameters .., rfl⟩

theorem shape_of_kept (faithful : g.Faithful s) {code : Script}
    (found : g.scripts.get? id = some code) (kept : s.results.get? id = some (.ok f)) :
    f.arguments.map Variable.type = code.arguments ∧ f.returns = code.returns :=
  (faithful id f kept).shape found

/-- What a caller can read off the function of a callee that it enters, kept before or not, is what
    it takes a callee in progress by. -/
theorem shape_of_interpretAt (faithful : g.Faithful s) {code : Script}
    (found : g.scripts.get? id = some code) {depth : Nat} {active : List Int32}
    (given : (g.interpretAt depth active id s).1 = .ok f) :
    f.arguments.map Variable.type = code.arguments ∧ f.returns = code.returns :=
  ((faithful_interpretAt depth active id faithful).2 f given).shape found

theorem traced_of_kept (reached : g.Reached s) (kept : s.results.get? id = some (.ok f)) :
    ∃ code insns, g.scripts.get? id = some code ∧ (g.context id code).Traced g.table f insns ∧
      g.effectsOf id = ((g.context id code).lift g.table).effects := by
  obtain ⟨code, found, lifted⟩ := reached.faithful id f kept
  obtain ⟨insns, traced⟩ := Context.traced lifted
  exact ⟨code, insns, found, traced, effectsOf_eq found⟩

theorem step_of_kept {code : Script} {insns : List Instruction}
    (traced : (g.context id code).Traced g.table f insns)
    (effects : g.effectsOf id = ((g.context id code).lift g.table).effects)
    {e : Nat × Instruction} (member : e ∈ f.code.toList) {p : Expr} (part : p ∈ e.2.parts)
    (request : p.isRequest) : ∃ opcode F ds asked,
      (g.context id code).frameAt? g.table e.1 = some F ∧ e.2 = .assign ds p ∧
      Asks (g.context id code) opcode F.stack asked (.assign ds p) ∧
      asked ⊆ g.effectsOf id := by
  rcases traced.entry member with ⟨l, label⟩ | found
  · simp [label, Instruction.parts, Instruction.definitions, Instruction.operands] at part
  · obtain ⟨opcode, F, F', -, here, -, ⟨taken, put, asked, moved, uses, asks⟩, -, effects'⟩ :=
      traced.steps _ _ found
    obtain ⟨ds, same⟩ := uses.flat.eq_assign part request
    refine ⟨opcode, F, ds, asked, here, same, same ▸ asks, ?_⟩
    rw [effects]
    refine List.Subset.trans ?_ effects'
    rw [moved.effects]
    exact List.subset_append_right _ _

theorem returnFits (reached : g.Reached s) (explains : g.Explains done s)
    (kept : s.results.get? id = some (.ok f)) {code : Script}
    (known : g.scripts.get? id = some code) {values : List Expr}
    (returns : .ret values ∈ f.code.instructions) :
    List.Forall₂ (fun e u => ∃ v t, e = .var v t ∧ s.typings.sameType u t) values
      (resultTypes id code.returns) := by
  obtain ⟨code', insns, found, traced, effects⟩ := traced_of_kept reached kept
  obtain rfl : code = code' := Option.some.inj (known.symm.trans found)
  obtain ⟨e, member, is⟩ := List.mem_map.1 returns
  rcases traced.entry member with ⟨l, label⟩ | at_e
  · simp [is] at label
  · rw [is] at at_e
    obtain ⟨_, F, F', -, -, -, ⟨taken, put, asked, moved, -, asks⟩, -, effects'⟩ :=
      traced.steps _ _ at_e
    obtain ⟨count, joined⟩ := asks
    rw [List.forall₂_iff_get]
    have length : values.length = (resultTypes id code.returns).length := by
      rw [resultTypes, List.length_map, List.length_range]
      exact count
    refine ⟨length, fun n inside _ => ?_⟩
    obtain ⟨v, t, eq, unified⟩ := joined n inside
    refine ⟨v, t, eq, ?_⟩
    have same := explains.sameType (explains.kept id f kept) (a := .ofResult id n) (b := t) (by
      rw [effects]
      apply effects'
      rw [moved.effects]
      exact List.mem_append_right _ unified)
    simpa [resultTypes] using same

theorem callFits (reached : g.Reached s) (explains : g.Explains done s)
    (kept : s.results.get? id = some (.ok f)) {e : Nat × Instruction} (member : e ∈ f.code.toList)
    {opcode : Opcode} {callee : Int32} {arguments : List Expr} {results : List StackType}
    {typings : List TypeVar} (part : .call opcode callee arguments results typings ∈ e.2.parts) :
    ∃ definitions, e.2 = .assign definitions (.call opcode callee arguments results typings) ∧
      (FunctionSet.ofStores s).CallFits callee definitions arguments typings := by
  obtain ⟨code, insns, found, traced, effects⟩ := traced_of_kept reached kept
  obtain ⟨_, F, ds, asked, -, same, asks, sub⟩ := step_of_kept traced effects member part rfl
  obtain ⟨-, ⟨shape, known, declared, -⟩, passed, defined, rfl⟩ := asks
  have did := explains.kept id f kept
  refine ⟨ds, same, ?_, ?_, ?_⟩
  · intro stack n t among
    exact explains.sameType did (sub (passed stack n t among))
  · refine defined.imp fun d u fits => ?_
    obtain ⟨v, t, eq, unified⟩ := fits
    exact ⟨v, t, eq, explains.sameType did (sub unified)⟩
  · intro f' kept' values returns
    rw [declared]
    exact returnFits reached explains (FunctionSet.functions_ofStores.1 kept') known returns

theorem hookFits (reached : g.Reached s) (explains : g.Explains done s)
    (kept : s.results.get? id = some (.ok f)) {e : Nat × Instruction} (member : e ∈ f.code.toList)
    {opcode : Opcode} {handler : Int32} {arguments triggers : List Expr} {dot : Bool}
    {component : Option Expr}
    (part : .hook opcode handler arguments triggers dot component ∈ e.2.parts) :
    ∃ code frame text types, g.scripts.get? id = some code ∧
      (g.context id code).frameAt? g.table e.1 = some frame ∧
      frame.stack[if Opcode.ifSetOnClick ≤ opcode then 1 else 0]?.bind Slot.constant =
        some (.str text) ∧
      (argumentMarks text).mapM ValueType.ofDescriptor? = some types ∧
      (FunctionSet.ofStores s).HookFits handler arguments types := by
  obtain ⟨code, insns, found, traced, effects⟩ := traced_of_kept reached kept
  obtain ⟨_, F, ds, asked, here, -, asks, sub⟩ := step_of_kept traced effects member part rfl
  obtain ⟨types, ⟨text, held, described⟩, count, parameters⟩ := asks
  have did := explains.kept id f kept
  refine ⟨code, F, text, types, found, here, held, described, count, fun set i t at_i => ?_⟩
  obtain ⟨p, place, pinned, unified⟩ := parameters set i t at_i
  refine ⟨p, place, fun v u at_v => ?_, fun other => ?_⟩
  · exact explains.sameType did (sub (unified v u at_v))
  · exact explains.frozen did (sub pinned) other

/-- In whatever order scripts were interpreted and whatever failed: at each call in a function of
    the set, the values that cross over are typed on both sides alike, and so are the values that a
    hook passes, under the types that the descriptor on the stack names. -/
theorem types_cross_boundaries (g : Setting) (turns : List Turn) {id : Int32} {f : Function}
    (kept : (FunctionSet.ofStores (g.run turns)).functions.get? id = some f) :
    (∀ e ∈ f.code.toList, ∀ opcode callee arguments results typings,
      .call opcode callee arguments results typings ∈ e.2.parts → ∃ definitions,
        e.2 = .assign definitions (.call opcode callee arguments results typings) ∧
        (FunctionSet.ofStores (g.run turns)).CallFits callee definitions arguments typings) ∧
    ∀ e ∈ f.code.toList, ∀ opcode handler arguments triggers dot component,
      .hook opcode handler arguments triggers dot component ∈ e.2.parts →
        ∃ code frame text types, g.scripts.get? id = some code ∧
          (g.context id code).frameAt? g.table e.1 = some frame ∧
          frame.stack[if Opcode.ifSetOnClick ≤ opcode then 1 else 0]?.bind Slot.constant =
            some (.str text) ∧
          (argumentMarks text).mapM ValueType.ofDescriptor? = some types ∧
          (FunctionSet.ofStores (g.run turns)).HookFits handler arguments types := by
  have reached := reached_run g turns
  obtain ⟨done, explains⟩ := reached.explains
  have known := FunctionSet.functions_ofStores.1 kept
  constructor
  · intro e member opcode callee arguments results typings part
    exact callFits reached explains known member part
  · intro e member opcode handler arguments triggers dot component part
    exact hookFits reached explains known member part

end Setting

namespace Sample

/-- A call of script 1 with a number and a string, and a hook that makes it the handler of a
    component and a string. -/
def passer : Script :=
  .ofLines [.pushInt 7, .pushString "a", .op .gosubWithParams (.int 1), .op .popIntDiscard (.int 0),
    .pushInt 1, .pushInt 5, .pushString "b", .pushString "Is", .op .ccSetOnClick (.int 0),
    .op .ret (.int 0)]

def passing : Setting :=
  .of ((IntMap.insert .empty 0 passer).insert 1
    (.ofLines [.arguments 1 1, .returns [.int], .op .pushIntLocal (.int 0), .op .ret (.int 0)]))
    .none .default

def passed (n : Nat) (stack : StackType) : Expr :=
  .var (.stack 0 n stack) (.ofVariable (.stack 0 n stack))

def passingCall : Expr :=
  .call .gosubWithParams 1 [passed 0 .int, passed 1 .string] [.int] [.ofResult 1 0]

def passingHook : Expr := .hook .ccSetOnClick 1 [passed 4 .int, passed 5 .string] [] false none

def passingAssigns (n : Nat) (definitions : List Expr) (expression : Expr) : Bool :=
  ((FunctionSet.ofStores (passing.run [.all])).functions.get? 0).any fun f =>
    f.code.toList[n]?.any fun e => e.1 == n && match e.2 with
      | .assign ds x => ds == definitions && x == expression
      | _ => false

theorem mem_of_passingAssigns {n : Nat} {ds : List Expr} {x : Expr}
    (assigns : passingAssigns n ds x) : ∃ f,
      (FunctionSet.ofStores (passing.run [.all])).functions.get? 0 = some f ∧
        (n, .assign ds x) ∈ f.code.toList := by
  obtain ⟨f, ⟨m, i⟩, kept, member, same⟩ := FunctionSet.exists_of_test assigns
  refine ⟨f, kept, ?_⟩
  cases i <;> simp only [Bool.and_eq_true, beq_iff_eq, Bool.and_false, Bool.false_eq_true] at same
  obtain ⟨rfl, rfl, rfl⟩ := same
  exact member

/-- The first local of script 1 has the type of both numbers passed, and is a component. -/
theorem passing_crosses :
    passingAssigns 2 [passed 2 .int] passingCall ∧ passingAssigns 8 [] passingHook ∧
    (FunctionSet.ofStores (passing.run [.all])).CallFits 1 [passed 2 .int]
      [passed 0 .int, passed 1 .string] [.ofResult 1 0] ∧
    (FunctionSet.ofStores (passing.run [.all])).HookFits 1 [passed 4 .int, passed 5 .string]
      [.component, .string] := by
  have calls : passingAssigns 2 [passed 2 .int] passingCall := by decide +kernel
  have hooks : passingAssigns 8 [] passingHook := by decide +kernel
  refine ⟨calls, hooks, ?_, ?_⟩
  · obtain ⟨f, kept, member⟩ := mem_of_passingAssigns calls
    have crosses := Setting.types_cross_boundaries passing [.all] kept
    obtain ⟨definitions, same, fits⟩ := crosses.1 _ member .gosubWithParams 1
      [passed 0 .int, passed 1 .string] [.int] [.ofResult 1 0]
      (List.mem_of_getElem? (i := 1) rfl)
    obtain ⟨rfl, -⟩ := Instruction.assign.inj same
    exact fits
  · obtain ⟨f, kept, member⟩ := mem_of_passingAssigns hooks
    have crosses := Setting.types_cross_boundaries passing [.all] kept
    obtain ⟨code, frame, text, types, known, here, held, described, fits⟩ :=
      crosses.2 _ member .ccSetOnClick 1 [passed 4 .int, passed 5 .string] [] false none
        (List.mem_of_getElem? (i := 0) rfl)
    obtain rfl : passer = code := Option.some.inj known
    have top : (((passing.context 0 passer).frameAt? passing.table 8).bind fun frame =>
        frame.stack[0]?.bind Slot.constant) = some (.str "Is") := by decide +kernel
    rw [here] at top
    obtain ⟨rfl⟩ : Value.str text = .str "Is" := Option.some.inj (held.symm.trans top)
    have marks : (argumentMarks "Is").mapM ValueType.ofDescriptor? =
        some [.component, .string] := by
      decide +kernel
    rw [Option.some.inj (marks.symm.trans described)]
    exact fits

end Sample

end ClientScript
