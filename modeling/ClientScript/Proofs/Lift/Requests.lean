import ClientScript.Proofs.Lift.Steps

/-!
Steps that reach other scripts. At a call, a return and a hook, the values are joined with those
they stand for in the other script. Main statement: every position of a script is such a step.
-/
namespace ClientScript

namespace Variable

/-- The n-th argument of a stack type goes to the local that comes n-th after those before. -/
theorem mem_zip_parametersFrom {α : Type} (script : Int32) (stack : StackType) (a : α)
    (held : List (StackType × α)) :
    ∀ ints strings n, ((held.filter fun s => s.1 = stack).map Prod.snd)[n]? = some a →
      (localVar script ((match stack with | .int => ints | .string => strings) + n) stack, a) ∈
        (parametersFrom script ints strings (held.map Prod.fst)).zip (held.map Prod.snd) := by
  induction held with
  | nil => simp
  | cons s held ih =>
    obtain ⟨type, b⟩ := s
    intro ints strings n found
    by_cases same : type = stack
    · subst same
      cases n with
      | zero =>
        obtain rfl : b = a := by simpa using found
        cases type <;> simp [parametersFrom]
      | succ n =>
        cases type with
        | int =>
          have later := ih (ints + 1) strings n (by simpa using found)
          rw [show ints + 1 + n = ints + (n + 1) by omega] at later
          exact List.mem_cons_of_mem _ later
        | string =>
          have later := ih ints (strings + 1) n (by simpa using found)
          rw [show strings + 1 + n = strings + (n + 1) by omega] at later
          exact List.mem_cons_of_mem _ later
    · have rest : ((held.filter fun s => s.1 = stack).map Prod.snd)[n]? = some a := by
        simpa [same] using found
      cases type <;> cases stack <;> first
        | exact absurd rfl same
        | exact List.mem_cons_of_mem _ (ih _ _ n rest)

theorem getElem?_parametersFrom (script : Int32) (types : List StackType) :
    ∀ ints strings i, (parametersFrom script ints strings types)[i]? = types[i]?.map fun t =>
      localVar script ((match t with | .int => ints | .string => strings) + (types.take i).count t)
        t := by
  induction types with
  | nil => simp [parametersFrom]
  | cons t types ih =>
    intro ints strings i
    cases i with
    | zero => cases t <;> simp [parametersFrom]
    | succ i =>
      cases t <;>
        simp only [parametersFrom, List.getElem?_cons_succ, ih, List.take_succ_cons,
          List.count_cons] <;>
        congr 1 <;> funext u <;> cases u <;> simp <;> omega

theorem getElem?_parameters (script : Int32) (types : List StackType) (i : Nat) :
    (parameters script types)[i]? =
      types[i]?.map fun t => localVar script ((types.take i).count t) t := by
  rw [parameters, getElem?_parametersFrom]
  congr 1
  funext t
  cases t <;> simp

end Variable

namespace Lift

variable {ctx : Context} {f f' : Frame} {i : Instruction} {opcode : Opcode}

theorem typingsOn_append (stack : StackType) (es es' : List Expr) :
    Expr.typingsOn stack (es ++ es') = Expr.typingsOn stack es ++ Expr.typingsOn stack es' :=
  List.filterMap_append

theorem typingsOn_slots (stack : StackType) (slots : List Slot) :
    Expr.typingsOn stack (slots.map (slotExpr ctx)) =
      ((slots.map fun s => (s.type, slotType ctx s)).filter fun s => s.1 = stack).map Prod.snd := by
  induction slots with
  | nil => rfl
  | cons s slots ih =>
    by_cases same : s.type = stack
    · simpa [Expr.typingsOn, slotExpr, slotVariable, Variable.type, same] using ih
    · simpa [Expr.typingsOn, slotExpr, slotVariable, Variable.type, same] using ih

theorem length_typingsOn_slots (stack : StackType) (slots : List Slot) :
    (Expr.typingsOn stack (slots.map (slotExpr ctx))).length =
      (slots.map Slot.type).count stack := by
  rw [typingsOn_slots, List.length_map, List.filter_map, List.length_map, List.count,
    List.countP_map, List.countP_eq_length_filter]
  rfl

theorem mem_unifyAll {pairs : List (TypeVar × TypeVar)} {a b : TypeVar} (h : (a, b) ∈ pairs) :
    Effect.unify a b ∈ pairs.map fun p => .unify p.1 p.2 :=
  List.mem_map.2 ⟨_, h, rfl⟩

/-- The n-th slot of a stack type is joined with the n-th local of that type. -/
theorem unified_parameters (id : Int32) {slots : List Slot} {stack : StackType} {n : Nat}
    {t : TypeVar} (among : (Expr.typingsOn stack (slots.map (slotExpr ctx)))[n]? = some t) :
    Effect.unify (.ofVariable (.localVar id n stack)) t ∈
      (((Variable.parameters id (slots.map Slot.type)).map TypeVar.ofVariable).zip
        (slots.map (slotType ctx))).map fun p => .unify p.1 p.2 := by
  rw [typingsOn_slots] at among
  have pair := Variable.mem_zip_parametersFrom id stack t _ 0 0 n among
  rw [List.map_map, List.map_map] at pair
  apply mem_unifyAll
  rw [List.zip_map_left]
  refine List.mem_map.2 ⟨_, pair, ?_⟩
  cases stack <;> simp

theorem unified_definitions {id : Int32} {slots : List Slot} {returns : List StackType}
    (types : slots.map Slot.type = returns) :
    List.Forall₂ (fun d u => ∃ v t, d = .var v t ∧ Effect.unify t u ∈
        ((slots.map (slotType ctx)).zip (resultTypes id returns)).map fun p => .unify p.1 p.2)
      (slots.map (slotExpr ctx)) (resultTypes id returns) := by
  rw [List.forall₂_map_left_iff, List.forall₂_iff_zip]
  constructor
  · rw [resultTypes, List.length_map, List.length_range, ← types, List.length_map]
  · intro s u pair
    refine ⟨_, _, rfl, mem_unifyAll ?_⟩
    rw [List.zip_map_left]
    exact List.mem_map.2 ⟨_, pair, rfl⟩

theorem moved_callee {id : Int32} {shape : Script} (h : Comes (callee ctx id) f shape f') :
    ctx.scripts.get? id = some shape ∧ Moved f f' [] [] [.enter id] := by
  unfold callee at h
  split at h
  · exact absurd h not_comes_throw
  · rename_i found
    obtain ⟨_, f₁, entered, h₁⟩ := comes_bind.1 h
    obtain ⟨rfl, rfl⟩ := comes_pure.1 h₁
    exact ⟨found, moved_emit entered⟩

theorem step_apply {f₁ : Frame} {id : Int32} {shape : Script} {before : List Expr}
    {asked : List Effect} (prior : Moved f f₁ [] [] asked) (entered : .enter id ∈ asked)
    (found : ctx.scripts.get? id = some shape) (gathered : Gathered ctx [] before)
    (constant : ∀ stack, Expr.typingsOn stack before = [])
    (h : Comes (apply ctx opcode id shape before) f₁ i f') : Step ctx opcode f f' i := by
  obtain ⟨popped, f₂, first, h₁⟩ := comes_bind.1 h
  simp only at h₁
  split at h₁
  · rename_i kinds
    obtain ⟨parameters, f₃, second, h₂⟩ := comes_bind.1 h₁
    obtain ⟨_, f₄, third, h₃⟩ := comes_bind.1 h₂
    obtain ⟨_, f₅, fourth, h₄⟩ := comes_bind.1 h₃
    obtain ⟨slots, f₆, fifth, h₅⟩ := comes_bind.1 h₄
    obtain ⟨_, f₇, sixth, h₆⟩ := comes_bind.1 h₅
    obtain ⟨rfl, rfl⟩ := comes_pure.1 h₆
    obtain ⟨-, moved₁⟩ := moved_popMany first
    obtain ⟨rfl, _, moved₂⟩ := moved_typedAll second
    obtain ⟨types, moved₅⟩ := moved_pushAll fifth
    have moved := (((((prior.trans moved₁).onward moved₂).onward (moved_unifyAll third)).onward
      (moved_emit fourth)).onward moved₅).onward (moved_unifyAll sixth)
    have inputs : Gathered ctx popped.reverse (before ++ popped.map (slotExpr ctx)) := by
      simpa using (gathered_reverse popped).append gathered
    rw [List.append_nil] at moved
    refine ⟨_, slots, _, moved, uses_slots rfl inputs slots, ?_⟩
    constructor
    · simp [entered]
    · refine ⟨shape, found, rfl, fun stack => ?_⟩
      rw [typingsOn_append, constant, List.nil_append, length_typingsOn_slots]
      simp only [sameKinds, Bool.and_eq_true, beq_iff_eq] at kinds
      cases stack
      · exact kinds.1
      · exact kinds.2
    · intro stack n t among
      rw [typingsOn_append, constant, List.nil_append] at among
      simp [unified_parameters id among]
    · refine (unified_definitions types).imp fun d u unified => ?_
      obtain ⟨v, t, rfl, agreed⟩ := unified
      exact ⟨v, t, rfl, by simp [agreed]⟩
    · rfl
  · exact absurd h₁ not_comes_imbalance

theorem step_proc (h : Comes (proc ctx opcode) f i f') : Step ctx opcode f f' i := by
  obtain ⟨id, f₁, taken, h₁⟩ := comes_bind.1 h
  obtain rfl := stays_intOperand taken
  obtain ⟨shape, f₂, entered, h₂⟩ := comes_bind.1 h₁
  obtain ⟨found, moved⟩ := moved_callee entered
  obtain ⟨_, f₃, recorded, h₃⟩ := comes_bind.1 h₂
  exact step_apply (moved.onward (moved_emit recorded)) (by simp) found (gathered_nil _)
    (fun _ => rfl) h₃

theorem step_invoke (h : Comes (invoke ctx opcode) f i f') : Step ctx opcode f f' i := by
  obtain ⟨id, f₁, taken, h₁⟩ := comes_bind.1 h
  obtain rfl := stays_intOperand taken
  obtain ⟨shape, f₂, entered, h₂⟩ := comes_bind.1 h₁
  obtain ⟨found, moved⟩ := moved_callee entered
  obtain ⟨_, f₃, recorded, h₃⟩ := comes_bind.1 h₂
  obtain ⟨t, f₄, new, h₄⟩ := comes_bind.1 h₃
  exact step_apply ((moved.onward (moved_emit recorded)).onward (moved_nameless new)) (by simp)
    found (gathered_other rfl (by simp [Expr.location?])) (fun _ => rfl) h₄

theorem step_ret (h : Comes (ret ctx) f i f') : Step ctx opcode f f' i := by
  obtain ⟨slots, f₁, popped, h₁⟩ := comes_bind.1 h
  simp only at h₁
  split at h₁
  · rename_i declared
    obtain ⟨_, f₂, known, h₂⟩ := comes_bind.1 h₁
    obtain ⟨_, f₃, joined, h₃⟩ := comes_bind.1 h₂
    obtain ⟨rfl, rfl⟩ := comes_pure.1 h₃
    have moved := ((moved_popAll popped).2.onward (moved_emit known)).onward (moved_unifyAll joined)
    refine ⟨slots.reverse, [], _, moved,
      uses_plain (by simp [Instruction.definitions]) (gathered_reverse slots) rfl, ?_⟩
    constructor
    · rw [← declared, List.length_map, List.length_map]
    · intro n inside
      rw [List.length_map] at inside
      refine ⟨slotVariable ctx slots[n], slotType ctx slots[n], by simp [slotExpr], ?_⟩
      have pair : (.ofResult ctx.script n, slotType ctx slots[n]) ∈
          (resultTypes ctx.script (slots.map Slot.type)).zip (slots.map (slotType ctx)) := by
        refine List.mem_of_getElem? (i := n) ?_
        simp [resultTypes, inside]
      simp [mem_unifyAll pair]
  · exact absurd h₁ not_comes_imbalance

theorem moved_pointer {v : Variable} {e : Expr} (lasting : v.isStack = false)
    (h : Comes (pointer v) f e f') :
    Gathered ctx [] [e] ∧ ∃ asked, Moved f f' [] [] asked := by
  obtain ⟨t, f₁, declared, h₁⟩ := comes_bind.1 h
  obtain ⟨rfl, rfl⟩ := comes_pure.1 h₁
  refine ⟨gathered_other rfl ?_, _, (moved_typed declared).2⟩
  rintro u ⟨⟩
  exact lasting

theorem moved_named {kind : Int32 → Variable} {e : Expr}
    (lasting : ∀ n, (kind n).isStack = false)
    (h : Comes (do pointer (kind (← popInt ctx))) f e f') :
    ∃ taken asked, Gathered ctx taken [e] ∧ Moved f f' taken [] asked := by
  obtain ⟨n, f₁, popped, h₁⟩ := comes_bind.1 h
  obtain ⟨s, -, moved⟩ := moved_popInt popped
  obtain ⟨gathered, _, moved'⟩ := moved_pointer (lasting n) h₁
  exact ⟨[s], _, by simpa using (gathered_nil [s]).append gathered,
    moved.onward moved'⟩

theorem moved_transmitted {transmit : Transmit} {e : Expr}
    (h : Comes (transmitted ctx transmit) f e f') :
    ∃ taken asked, Gathered ctx taken [e] ∧ Moved f f' taken [] asked := by
  cases transmit with
  | none => exact absurd h not_comes_defect
  | untyped =>
    obtain ⟨s, f₁, popped, h₁⟩ := comes_bind.1 h
    obtain ⟨rfl, rfl⟩ := comes_pure.1 h₁
    exact ⟨[s], _, gathered_slots [s], (moved_pop popped).2⟩
  | stat | inv =>
    obtain ⟨s, _, rfl, -, moved⟩ := moved_popAs h
    exact ⟨[s], _, gathered_slots [s], moved⟩
  | varp | varcInt | varcString => exact moved_named (fun _ => rfl) h

theorem moved_transmitList {transmit : Transmit} {count : Nat} {es : List Expr}
    (h : Comes (transmitList ctx transmit count) f es f') :
    ∃ taken asked, Gathered ctx taken es ∧ Moved f f' taken [] asked := by
  induction count generalizing f f' es with
  | zero =>
    obtain ⟨rfl, rfl⟩ := comes_pure.1 h
    exact ⟨[], _, gathered_nil _, .refl _⟩
  | succ n ih =>
    obtain ⟨last, f₁, one, h₁⟩ := comes_bind.1 h
    obtain ⟨before, f₂, rest, h₂⟩ := comes_bind.1 h₁
    obtain ⟨rfl, rfl⟩ := comes_pure.1 h₂
    obtain ⟨taken, _, gathered, moved⟩ := moved_transmitted one
    obtain ⟨taken', _, gathered', moved'⟩ := ih rest
    exact ⟨_, _, gathered.append gathered', moved.trans moved'⟩

theorem comes_describedTypes {marks : List Char} {types : List ValueType}
    (h : Comes (describedTypes ctx marks) f types f') :
    marks.mapM ValueType.ofDescriptor? = some types ∧ f' = f := by
  induction marks generalizing f f' types with
  | nil =>
    obtain ⟨rfl, rfl⟩ := comes_pure.1 h
    exact ⟨rfl, rfl⟩
  | cons c marks ih =>
    unfold describedTypes at h
    split at h
    · exact absurd h not_comes_defect
    · rename_i t known
      obtain ⟨later, f₁, rest, h₁⟩ := comes_bind.1 h
      obtain ⟨rfl, rfl⟩ := comes_pure.1 h₁
      obtain ⟨described, rfl⟩ := ih rest
      refine ⟨?_, rfl⟩
      rw [List.mapM_cons, known, described]
      rfl

theorem moved_handlerArguments {types : List ValueType} {es : List Expr}
    (h : Comes (handlerArguments ctx types) f es f') : es.length = types.length ∧
      ∃ taken, Gathered ctx taken es ∧ Moved f f' taken [] [] := by
  induction types generalizing f f' es with
  | nil =>
    obtain ⟨rfl, rfl⟩ := comes_pure.1 h
    exact ⟨rfl, [], gathered_nil _, .refl _⟩
  | cons t types ih =>
    obtain ⟨after, f₁, rest, h₁⟩ := comes_bind.1 h
    obtain ⟨count, taken, gathered, moved⟩ := ih rest
    obtain ⟨held, f₂, seen, h₂⟩ := comes_bind.1 h₁
    obtain ⟨-, rfl⟩ := comes_peek seen
    obtain ⟨s, f₃, popped, h₃⟩ := comes_bind.1 h₂
    have moved' := moved.trans (moved_pop popped).2
    split at h₃
    · rename_i property _
      obtain ⟨rfl, rfl⟩ := comes_pure.1 h₃
      have event : Gathered ctx ([s] ++ []) ([.event property] ++ []) :=
        (gathered_nil _).append (gathered_other rfl (by simp [Expr.location?]))
      exact ⟨by simp [count], _, gathered.append event, moved'⟩
    · obtain ⟨rfl, rfl⟩ := comes_pure.1 h₃
      exact ⟨by simp [count], _, gathered.append (gathered_slots [s]), moved'⟩

theorem moved_joinParameters {joins : List (Variable × ValueType × Expr)} {u : Unit}
    (h : Comes (joinParameters joins) f u f') : ∃ asked, Moved f f' [] [] asked ∧
      ∀ p t a, (p, t, a) ∈ joins → .freeze (.ofVariable p) t ∈ asked ∧
        ∀ v typing, a = .var v typing → .unify typing (.ofVariable p) ∈ asked := by
  induction joins generalizing f with
  | nil =>
    obtain ⟨-, rfl⟩ := comes_pure.1 h
    exact ⟨[], .refl _, by simp⟩
  | cons join joins ih =>
    obtain ⟨parameter, described, argument⟩ := join
    obtain ⟨_, f₁, frozen, h₁⟩ := comes_bind.1 h
    have first : ∃ asked f₂, Moved f₁ f₂ [] [] asked ∧ Comes (joinParameters joins) f₂ u f' ∧
        ∀ v typing, argument = .var v typing → .unify typing (.ofVariable parameter) ∈ asked := by
      simp only at h₁
      split at h₁
      · obtain ⟨_, f₂, joined, h₂⟩ := comes_bind.1 h₁
        refine ⟨_, f₂, moved_unify joined, h₂, ?_⟩
        rintro _ _ ⟨⟩
        simp
      · rename_i other
        exact ⟨[], _, .refl _, h₁, fun v typing same => absurd same (other v typing)⟩
    obtain ⟨asked, f₂, moved, rest, unified⟩ := first
    obtain ⟨asked', moved', later⟩ := ih rest
    refine ⟨_, ((moved_emit frozen).onward moved).onward moved', ?_⟩
    intro p t a member
    rcases List.mem_cons.1 member with same | inside
    · obtain ⟨rfl, rfl, rfl⟩ := same
      exact ⟨by simp, fun v typing eq => by simp [unified v typing eq]⟩
    · obtain ⟨pinned, joined⟩ := later p t a inside
      exact ⟨by simp [pinned], fun v typing eq => by simp [joined v typing eq]⟩

theorem moved_register {handler : Int32} {types : List ValueType} {args : List Expr} {u : Unit}
    (count : args.length = types.length) (h : Comes (register handler types args) f u f') :
    ∃ asked, Moved f f' [] [] asked ∧ (0 ≤ handler.toInt → ∀ i t, types[i]? = some t → ∃ p,
      p = Variable.localVar handler (((types.map ValueType.stack).take i).count t.stack) t.stack ∧
        .freeze (.ofVariable p) t ∈ asked ∧
        ∀ v typing, args[i]? = some (.var v typing) → .unify typing (.ofVariable p) ∈ asked) := by
  unfold register at h
  split at h
  · obtain ⟨_, f₁, declared, h₁⟩ := comes_bind.1 h
    obtain ⟨_, f₂, joined, h₂⟩ := comes_bind.1 h₁
    obtain ⟨-, _, moved₁⟩ := moved_typedAll declared
    obtain ⟨asked, moved₂, joins⟩ := moved_joinParameters joined
    refine ⟨_, (moved₁.onward moved₂).onward (moved_emit h₂), ?_⟩
    intro _ i t at_i
    obtain ⟨a, at_a⟩ : ∃ a, args[i]? = some a := by
      refine ⟨_, List.getElem?_eq_getElem (?_ : i < args.length)⟩
      rw [count]
      exact (List.getElem?_eq_some_iff.1 at_i).1
    refine ⟨_, rfl, ?_⟩
    have parameter : (Variable.parameters handler (types.map ValueType.stack))[i]? = some
        (.localVar handler (((types.map ValueType.stack).take i).count t.stack) t.stack) := by
      rw [Variable.getElem?_parameters, List.getElem?_map, at_i]
      rfl
    have pair : (types.zip args)[i]? = some (t, a) := List.getElem?_zip_eq_some.2 ⟨at_i, at_a⟩
    have join : ((Variable.parameters handler (types.map ValueType.stack)).zip
        (types.zip args))[i]? = some (_, t, a) := List.getElem?_zip_eq_some.2 ⟨parameter, pair⟩
    obtain ⟨pinned, unified⟩ := joins _ t a (List.mem_of_getElem? join)
    refine ⟨by simp [pinned], fun v typing same => ?_⟩
    rw [at_a, Option.some.injEq] at same
    simp [unified v typing same]
  · rename_i cleared
    obtain ⟨-, rfl⟩ := comes_pure.1 h
    exact ⟨[], .refl _, fun set => absurd set cleared⟩

theorem moved_hookTarget {target : Option Expr × Bool}
    (h : Comes (hookTarget ctx opcode) f target f') :
    ∃ taken asked, taken.length = (if Opcode.ifSetOnClick ≤ opcode then 1 else 0) ∧
      Gathered ctx taken target.1.toList ∧ Moved f f' taken [] asked := by
  unfold hookTarget at h
  split at h
  · rename_i other
    obtain ⟨_, f₁, popped, h₁⟩ := comes_bind.1 h
    obtain ⟨s, _, rfl, -, moved⟩ := moved_popAs popped
    obtain ⟨rfl, rfl⟩ := comes_pure.1 h₁
    exact ⟨[s], _, by simp [other], gathered_slots [s], moved⟩
  · rename_i relative
    obtain ⟨n, f₁, taken, h₁⟩ := comes_bind.1 h
    obtain rfl := stays_intOperand taken
    obtain ⟨rfl, rfl⟩ := comes_pure.1 h₁
    exact ⟨[], _, by simp [relative], gathered_nil _, .refl _⟩

theorem step_hook {transmit : Transmit} (h : Comes (hook ctx opcode transmit) f i f') :
    Step ctx opcode f f' i := by
  obtain ⟨target, f₁, first, h₁⟩ := comes_bind.1 h
  obtain ⟨above, _, count, gathered₁, moved₁⟩ := moved_hookTarget first
  obtain ⟨text, f₂, second, h₂⟩ := comes_bind.1 h₁
  obtain ⟨d, held, moved₂⟩ := moved_popText second
  have descriptor : f.stack[if Opcode.ifSetOnClick ≤ opcode then 1 else 0]?.bind Slot.constant =
      some (.str text) := by
    obtain ⟨kept, stack, under⟩ := moved₁.stack
    obtain ⟨kept', stack', -⟩ := moved₂.stack
    obtain rfl : kept = [d] ++ kept' := by simpa [under] using stack'
    rw [stack, ← count]
    simpa using held
  -- A transmit list comes off the stack only if the descriptor announces one.
  have third : ∃ triggers f₃ taken asked, Gathered ctx taken triggers ∧ Moved f₂ f₃ taken [] asked ∧
      Comes (do
        let types ← describedTypes ctx (argumentMarks text)
        let args ← handlerArguments ctx types
        let handler ← popInt ctx
        register handler types args
        return .assign [] (.hook opcode handler args triggers target.2 target.1)) f₃ i f' := by
    simp only at h₂
    split at h₂
    · rename_i listed
      obtain ⟨n, f₃, counted, h₃⟩ := comes_bind.1 h₂
      obtain ⟨triggers, f₄, popped, h₄⟩ := comes_bind.1 h₃
      obtain ⟨s, -, moved⟩ := moved_popInt counted
      obtain ⟨taken, _, gathered, moved'⟩ := moved_transmitList popped
      refine ⟨triggers, f₄, [s] ++ taken, _, ?_, moved.trans moved', ?_⟩
      · simpa using (gathered_nil [s]).append gathered
      · simpa [argumentMarks, listed] using h₄
    · rename_i unlisted
      refine ⟨[], f₂, [], _, gathered_nil _, .refl _, ?_⟩
      simpa [argumentMarks, unlisted] using h₂
  obtain ⟨triggers, f₃, transmitted, _, gathered₃, moved₃, h₃⟩ := third
  obtain ⟨types, f₄, fourth, h₄⟩ := comes_bind.1 h₃
  obtain ⟨described, rfl⟩ := comes_describedTypes fourth
  obtain ⟨args, f₅, fifth, h₅⟩ := comes_bind.1 h₄
  obtain ⟨handler, f₆, sixth, h₆⟩ := comes_bind.1 h₅
  obtain ⟨_, f₇, seventh, h₇⟩ := comes_bind.1 h₆
  obtain ⟨rfl, rfl⟩ := comes_pure.1 h₇
  obtain ⟨as_many, taken, gathered₅, moved₅⟩ := moved_handlerArguments fifth
  obtain ⟨s, -, moved₆⟩ := moved_popInt sixth
  obtain ⟨asked, moved₇, joins⟩ := moved_register as_many seventh
  have moved := (((((moved₁.trans moved₂).trans moved₃).trans moved₅).trans moved₆)).onward moved₇
  have gathered := (((gathered₁.append (gathered_nil [d])).append gathered₃).append
    gathered₅).append (gathered_nil [s])
  refine ⟨_, [], _, moved, uses_slots rfl (by simpa [Expr.inputs] using gathered) [], types, ?_⟩
  refine ⟨⟨text, descriptor, described⟩, as_many, fun set n t at_n => ?_⟩
  obtain ⟨p, place, pinned, unified⟩ := joins set n t at_n
  exact ⟨p, place, by simp [pinned], fun v typing same => by simp [unified v typing same]⟩

theorem step_command {c : Command} (h : Comes (command ctx opcode c) f i f') :
    Step ctx opcode f f' i := by
  cases c with
  | switch => exact step_switch h
  | goto => exact step_goto h
  | branchCompare => exact step_branchCompare h
  | ret => exact step_ret h
  | proc => exact step_proc h
  | invoke => exact step_invoke h
  | enum => exact step_enum h
  | enumHasOutput => exact step_enumHasOutput h
  | defineArray => exact step_defineArray h
  | pushArrayInt => exact step_pushArrayInt h
  | popArrayInt => exact step_popArrayInt h
  | discard type => exact step_discard h
  | constant type => exact step_constant h
  | load storage => exact step_load h
  | store storage => exact step_store h
  | joinString => exact step_joinString h
  | basic signature => exact step_basic h
  | hook transmit => exact step_hook h
  | param receiver => exact step_param h
  | dbGetField => exact step_dbGetField h

theorem step_position {table : Table} (h : Comes (position ctx table opcode) f i f') :
    Step ctx opcode f f' i ∧ (i.isTerminal = true → f'.stack = []) ∧
      (table.lookup? opcode).isSome := by
  obtain ⟨c, found, made, terminal⟩ := comes_position h
  exact ⟨step_command made, terminal, by rw [found]; rfl⟩

end Lift

end ClientScript
