import ClientScript.Proofs.Lift.Anchors
import ClientScript.Proofs.Lift.Emission
import ClientScript.Proofs.Lift.Trace

/-!
The scripts that a script reaches by one step. Calls and hooks name variables of the script that
they ask for, and record the call. Main statement: all that a script asks for, also if it fails on
the way, names only global variables, its own and those of scripts that it asks for; and if it
lifts, the calls that it records are those in its code.
-/
namespace ClientScript

/-- Effects that declare only what is global, of the script or of scripts that they ask for. -/
def Confined (script : Int32) (es : List Effect) : Prop :=
  ∀ e ∈ es, ∀ t ∈ e.declares, ∀ owner ∈ t.owner?,
    owner = script ∨ ∃ e' ∈ es, e'.callee? = some owner

theorem Confined.append {script : Int32} {es es' : List Effect} (h : Confined script es)
    (h' : Confined script es') : Confined script (es ++ es') := by
  intro e member t declares owner owned
  rcases List.mem_append.1 member with first | later
  · refine (h e first t declares owner owned).imp_right ?_
    rintro ⟨e', among, asks⟩
    exact ⟨e', List.mem_append_left _ among, asks⟩
  · refine (h' e later t declares owner owned).imp_right ?_
    rintro ⟨e', among, asks⟩
    exact ⟨e', List.mem_append_right _ among, asks⟩

def Command.trigger? : Command → Option Trigger
  | .proc => some .proc
  | .invoke => some .clientScript
  | _ => none

/-- The script that an expression asks for, calls with the given trigger. A negative handler clears
    a hook. -/
def Expr.request? (called : Trigger) : Expr → Option (Int32 × Trigger)
  | .call _ script _ _ _ => some (script, called)
  | .hook _ script _ _ _ _ => if 0 ≤ script.toInt then some (script, .clientScript) else none
  | _ => none

namespace Instruction

def requests (called : Trigger) (i : Instruction) : List (Int32 × Trigger) :=
  i.parts.filterMap (Expr.request? called)

end Instruction

def Function.requests (called : Trigger) (f : Function) : List (Int32 × Trigger) :=
  f.code.instructions.flatMap (Instruction.requests called)

namespace Expr

variable {called : Trigger} {e : Expr}

theorem request?_of_not_isRequest (other : e.isRequest = false) : e.request? called = none := by
  cases e <;> simp_all [isRequest, request?]

theorem requests_parts (simple : ∀ a ∈ e.inputs, a.isSimple) :
    e.parts.filterMap (request? called) = (e.request? called).toList := by
  have none : (partsAll e.inputs).filterMap (request? called) = [] := by
    rw [partsAll_of_isSimple simple]
    refine List.filterMap_eq_nil_iff.2 fun a among => request?_of_not_isRequest ?_
    have isSimple := simple a among
    cases a <;> simp_all [Expr.isSimple, isRequest]
  rw [parts_eq, List.filterMap_cons, none]
  cases e.request? called <;> rfl

end Expr

namespace Instruction

variable {called : Trigger} {i : Instruction}

theorem Flat.requests_eq (flat : i.Flat) :
    i.requests called = i.operands.flatMap fun e => (e.request? called).toList := by
  have defined : (i.definitions.flatMap Expr.parts).filterMap (Expr.request? called) = [] := by
    refine List.filterMap_eq_nil_iff.2 fun e member => ?_
    obtain ⟨d, among, inside⟩ := List.mem_flatMap.1 member
    have var := flat.definitions d among
    cases d <;> simp_all [Expr.isVar, Expr.parts, Expr.request?]
  rw [requests, parts, List.flatMap_append, List.filterMap_append, defined, List.nil_append,
    List.filterMap_flatMap]
  exact List.flatMap_congr fun e among => Expr.requests_parts (flat.inputs e among)

theorem Flat.requests_of_not_isRequest (flat : i.Flat) (other : i.isRequest = false) :
    i.requests called = [] := by
  rw [flat.requests_eq]
  refine List.flatMap_eq_nil_iff.2 fun e among => ?_
  rw [Expr.request?_of_not_isRequest, Option.toList_none]
  by_contra request
  obtain ⟨ds, rfl⟩ := flat.assigned e among (by simpa using request)
  exact request other

end Instruction

namespace Lift

/-- What a lift asks for is confined; and where it gives something, the calls that it records are as
    the condition says. -/
def Reaches {α : Type} (ctx : Context) (m : Lift α) (Q : α → List (Int32 × Trigger) → Prop) :
    Prop :=
  ∀ f r f', m.run.run f = (r, f') → ∃ asked, f'.effects = f.effects ++ asked ∧
    Confined ctx.script asked ∧ ∀ a, r = .ok a → Q a (asked.filterMap Effect.edge?)

section

variable {α β : Type} {ctx : Context} {m : Lift α} {Q : α → Prop}
  {R : β → List (Int32 × Trigger) → Prop} {es : List Effect} {ids : List Int32}

theorem edge?_of_quiet {e : Effect} (quiet : e.callee? = none) : e.edge? = none := by
  cases e <;> simp_all [Effect.callee?, Effect.edge?]

theorem edges_of_local (are : ∀ e ∈ es, e.Local ids) : es.filterMap Effect.edge? = [] :=
  List.filterMap_eq_nil_iff.2 fun e member => edge?_of_quiet (are e member).quiet

theorem confined_of_local (are : ∀ e ∈ es, e.Local [ctx.script]) : Confined ctx.script es :=
  fun e member t declares owner owned =>
    .inl (List.mem_singleton.1 ((are e member).owned t declares owner owned))

theorem reaches_of_emits (h : Emits (Effect.Local [ctx.script]) m Q) :
    Reaches ctx m fun a calls => Q a ∧ calls = [] := by
  intro f r f' run
  obtain ⟨⟨asked, effects, are⟩, gives⟩ := h f r f' run
  exact ⟨asked, effects, confined_of_local are, fun a ok => ⟨gives a ok, edges_of_local are⟩⟩

theorem Reaches.imp {Q Q' : α → List (Int32 × Trigger) → Prop} (h : Reaches ctx m Q)
    (gives : ∀ a calls, Q a calls → Q' a calls) : Reaches ctx m Q' := by
  intro f r f' run
  obtain ⟨asked, effects, confined, given⟩ := h f r f' run
  exact ⟨asked, effects, confined, fun a ok => gives a _ (given a ok)⟩

theorem reaches_pure {Q : α → List (Int32 × Trigger) → Prop} {a : α} (h : Q a []) :
    Reaches ctx (pure a) Q := by
  intro f r f' run
  cases run
  refine ⟨[], by simp, by simp [Confined], ?_⟩
  rintro _ ⟨⟩
  exact h

theorem reaches_bind {Q : α → List (Int32 × Trigger) → Prop} {k : α → Lift β}
    (first : Reaches ctx m Q)
    (later : ∀ a, Reaches ctx (k a) fun b calls' => ∀ calls, Q a calls → R b (calls ++ calls')) :
    Reaches ctx (m >>= k) R := by
  intro f r f' run
  rcases run_bind run with ⟨e, failed, rfl⟩ | ⟨a, f₁, ok, rest⟩
  · obtain ⟨asked, effects, confined, -⟩ := first f _ f' failed
    exact ⟨asked, effects, confined, by simp⟩
  · obtain ⟨asked, effects, confined, given⟩ := first f _ f₁ ok
    obtain ⟨asked', effects', confined', gives⟩ := later a f₁ r f' rest
    refine ⟨asked ++ asked', ?_, confined.append confined', fun b same => ?_⟩
    · rw [effects', effects, List.append_assoc]
    · rw [List.filterMap_append]
      exact gives b same _ (given a rfl)

theorem reaches_then {k : α → Lift β} (first : Emits (Effect.Local [ctx.script]) m anything)
    (later : ∀ a, Reaches ctx (k a) R) : Reaches ctx (m >>= k) R := by
  refine reaches_bind (reaches_of_emits first) fun a => (later a).imp ?_
  rintro b calls' gives _ ⟨-, rfl⟩
  exact gives

theorem reaches_last {Q : α → List (Int32 × Trigger) → Prop} {k : α → Lift β}
    (first : Reaches ctx m Q) (later : ∀ a, Emits (Effect.Local [ctx.script]) (k a) fun b =>
      ∀ calls, Q a calls → R b calls) : Reaches ctx (m >>= k) R := by
  refine reaches_bind first fun a => (reaches_of_emits (later a)).imp ?_
  rintro b _ ⟨gives, rfl⟩ calls given
  rw [List.append_nil]
  exact gives calls given

def CallsOf (id : Int32) (i : Instruction) : Prop :=
  ∃ definitions opcode arguments results typings,
    i = .assign definitions (.call opcode id arguments results typings)

theorem emits_apply (mine : ctx.script ∈ ids) {id : Int32} (inside : id ∈ ids) (opcode : Opcode)
    (shape : Script) (before : List Expr) :
    Emits (Effect.Local ids) (apply ctx opcode id shape before) (CallsOf id) := by
  refine emits_then (emits_popMany _) fun popped => ?_
  simp only
  split
  · exact emits_then (emits_parameters _ inside) fun _ => emits_then (emits_unifyAll _) fun _ =>
      emits_then (emits_results _ inside) fun _ => emits_then (emits_pushAll mine _) fun _ =>
        emits_then (emits_unifyAll _) fun _ => emits_pure ⟨_, _, _, _, _, rfl⟩
  · exact emits_imbalance _

/-- A callee is entered and the call recorded before anything of the callee is named. -/
theorem reaches_call {id : Int32} {trigger : Trigger} {k : Script → Lift Instruction}
    (rest : ∀ shape, Emits (Effect.Local [ctx.script, id]) (k shape) (CallsOf id)) :
    Reaches ctx (do
      let shape ← callee ctx id
      emit (.record id trigger)
      k shape) fun i calls => CallsOf id i ∧ calls = [(id, trigger)] := by
  intro f r f' run
  unfold callee at run
  split at run
  · cases run
    exact ⟨[], by simp, by simp [Confined], by simp⟩
  · rename_i shape found
    obtain ⟨⟨asked, effects, are⟩, gives⟩ := rest shape
      { f with effects := f.effects ++ [.enter id] ++ [.record id trigger] } r f' run
    refine ⟨[.enter id, .record id trigger] ++ asked, ?_, ?_, fun i ok => ⟨gives i ok, ?_⟩⟩
    · simp [effects]
    · intro e member t declares owner owned
      rcases List.mem_append.1 member with first | later
      · rcases List.mem_pair.1 first with rfl | rfl <;> simp [Effect.declares] at declares
      · rcases List.mem_pair.1 ((are e later).owned t declares owner owned) with rfl | rfl
        · exact .inl rfl
        · exact .inr ⟨.enter owner, by simp, rfl⟩
    · rw [List.filterMap_append, edges_of_local are]
      rfl

theorem reaches_proc (opcode : Opcode) : Reaches ctx (proc ctx opcode) fun i calls =>
    ∃ id, CallsOf id i ∧ calls = [(id, .proc)] := by
  refine reaches_then emits_intOperand fun id => ?_
  refine (reaches_call fun shape => ?_).imp fun i calls given => ⟨id, given⟩
  exact emits_apply (by simp) (by simp) opcode shape []

theorem reaches_invoke (opcode : Opcode) : Reaches ctx (invoke ctx opcode) fun i calls =>
    ∃ id, CallsOf id i ∧ calls = [(id, .clientScript)] := by
  refine reaches_then emits_intOperand fun id => ?_
  refine (reaches_call fun shape => ?_).imp fun i calls given => ⟨id, given⟩
  exact emits_then (emits_nameless (by simp) .int []) fun typing =>
    emits_apply (by simp) (by simp) opcode shape [.const (.int id) typing]

def Succeeds (m : Lift α) : Prop := ∀ f, ∃ a f', Comes m f a f'

theorem succeeds_emit (e : Effect) : Succeeds (emit e) := fun _ => ⟨_, _, rfl⟩

theorem succeeds_pure (a : α) : Succeeds (pure a : Lift α) := fun _ => ⟨_, _, rfl⟩

theorem succeeds_bind {k : α → Lift β} (first : Succeeds m) (later : ∀ a, Succeeds (k a)) :
    Succeeds (m >>= k) := by
  intro f
  obtain ⟨a, f₁, one⟩ := first f
  obtain ⟨b, f', two⟩ := later a f₁
  exact ⟨b, f', comes_bind.2 ⟨a, f₁, one, two⟩⟩

theorem succeeds_typedAll (vs : List Variable) : Succeeds (vs.mapM typed) := by
  induction vs with
  | nil => exact succeeds_pure _
  | cons v vs ih =>
    rw [List.mapM_cons]
    exact succeeds_bind (succeeds_bind (succeeds_emit _) fun _ => succeeds_pure _) fun _ =>
      succeeds_bind ih fun _ => succeeds_pure _

theorem succeeds_joinParameters (joins : List (Variable × ValueType × Expr)) :
    Succeeds (joinParameters joins) := by
  induction joins with
  | nil => exact succeeds_pure _
  | cons join joins ih =>
    refine succeeds_bind (succeeds_emit _) fun _ => ?_
    split
    · exact succeeds_bind (succeeds_emit _) fun _ => ih
    · exact ih

theorem emits_joinParameters (joins : List (Variable × ValueType × Expr)) :
    Emits (Effect.Local ids) (joinParameters joins) anything := by
  induction joins with
  | nil => exact emits_pure trivial
  | cons join joins ih =>
    refine emits_then (emits_freeze _ _) fun _ => ?_
    split
    · exact emits_then (emits_unify _ _) fun _ => ih
    · exact ih

/-- A handler's parameters are declared and joined, which cannot fail, before it is recorded. -/
theorem reaches_register (handler : Int32) (types : List ValueType) (args : List Expr) :
    Reaches ctx (register handler types args) fun _ calls =>
      calls = if 0 ≤ handler.toInt then [(handler, .clientScript)] else [] := by
  unfold register
  split
  · have named : Emits (Effect.Local [handler]) (do
        let _ ← (Variable.parameters handler (types.map ValueType.stack)).mapM typed
        joinParameters ((Variable.parameters handler (types.map ValueType.stack)).zip
          (types.zip args))) anything :=
      emits_then (emits_parameters _ (by simp)) fun _ => emits_joinParameters _
    intro f r f' run
    obtain ⟨_, f₁, declared⟩ := succeeds_bind (succeeds_typedAll _)
      (fun _ => succeeds_joinParameters ((Variable.parameters handler
        (types.map ValueType.stack)).zip (types.zip args))) f
    obtain ⟨⟨asked, effects, are⟩, -⟩ := named f _ f₁ declared
    obtain ⟨_, f₂, one, two⟩ := comes_bind.1 declared
    rw [run_of_comes one, run_of_comes two] at run
    cases run
    refine ⟨asked ++ [.record handler .clientScript], ?_, ?_, fun _ _ => ?_⟩
    · simp [effects]
    · intro e member t declares owner owned
      rcases List.mem_append.1 member with inside | record
      · obtain rfl := List.mem_singleton.1 ((are e inside).owned t declares owner owned)
        exact .inr ⟨.record owner .clientScript, by simp, rfl⟩
      · obtain rfl := List.mem_singleton.1 record
        simp [Effect.declares] at declares
    · rw [List.filterMap_append, edges_of_local are]
      rfl
  · exact reaches_pure rfl

def HookTo (handler : Int32) (i : Instruction) : Prop :=
  ∃ opcode arguments triggers dot component,
    i = .assign [] (.hook opcode handler arguments triggers dot component)

section

variable {P : Effect → Prop}

theorem emits_pointer {v : Variable} (global : v.owner? = none) :
    Emits (Effect.Local ids) (pointer v) anything :=
  emits_then (emits_typed (by simp [global])) fun _ => emits_pure trivial

theorem emits_transmitted (mine : ctx.script ∈ ids) (transmit : Transmit) :
    Emits (Effect.Local ids) (transmitted ctx transmit) anything := by
  cases transmit with
  | none => exact emits_defect _
  | untyped => exact emits_then (emits_pop .int) fun _ => emits_pure trivial
  | stat | inv => exact emits_popAs mine _
  | varp | varcInt | varcString => exact emits_then emits_popInt fun _ => emits_pointer rfl

theorem emits_transmitList (mine : ctx.script ∈ ids) (transmit : Transmit) (count : Nat) :
    Emits (Effect.Local ids) (transmitList ctx transmit count) anything := by
  induction count with
  | zero => exact emits_pure trivial
  | succ n ih =>
    exact emits_then (emits_transmitted mine transmit) fun _ => emits_then ih fun _ =>
      emits_pure trivial

theorem emits_hookTarget (mine : ctx.script ∈ ids) (opcode : Opcode) :
    Emits (Effect.Local ids) (hookTarget ctx opcode) anything := by
  unfold hookTarget
  split
  · exact emits_then (emits_popAs mine _) fun _ => emits_pure trivial
  · exact emits_then emits_intOperand fun _ => emits_pure trivial

end

theorem reaches_hook (opcode : Opcode) (transmit : Transmit) :
    Reaches ctx (hook ctx opcode transmit) fun i calls => ∃ handler, HookTo handler i ∧
      calls = if 0 ≤ handler.toInt then [(handler, .clientScript)] else [] := by
  refine reaches_then (emits_hookTarget (by simp) opcode) fun target => ?_
  refine reaches_then emits_popText fun text => ?_
  have rest : ∀ (descriptor : List Char) (triggers : List Expr), Reaches ctx (do
      let types ← describedTypes ctx descriptor
      let args ← handlerArguments ctx types
      let handler ← popInt ctx
      register handler types args
      return .assign [] (.hook opcode handler args triggers target.2 target.1))
      fun i calls => ∃ handler, HookTo handler i ∧
        calls = if 0 ≤ handler.toInt then [(handler, .clientScript)] else [] := by
    intro descriptor triggers
    refine reaches_then (emits_describedTypes _) fun types => ?_
    refine reaches_then (emits_handlerArguments _) fun args => ?_
    refine reaches_then emits_popInt fun handler => ?_
    refine reaches_last (reaches_register handler types args) fun _ => emits_pure ?_
    exact fun calls same => ⟨handler, ⟨_, _, _, _, _, rfl⟩, same⟩
  simp only
  split
  · refine reaches_then emits_popInt fun count => ?_
    exact reaches_then (emits_transmitList (by simp) transmit _) fun triggers => rest _ triggers
  · exact rest _ []

theorem requests_of_callsOf {i : Instruction} {id : Int32} (calls : CallsOf id i) (flat : i.Flat)
    (called : Trigger) : i.requests called = [(id, called)] := by
  obtain ⟨_, _, _, _, _, rfl⟩ := calls
  rw [flat.requests_eq]
  rfl

theorem requests_of_hookTo {i : Instruction} {handler : Int32} (hooks : HookTo handler i)
    (flat : i.Flat) (called : Trigger) :
    i.requests called = if 0 ≤ handler.toInt then [(handler, .clientScript)] else [] := by
  obtain ⟨_, _, _, _, _, rfl⟩ := hooks
  rw [flat.requests_eq]
  simp only [Instruction.operands, List.flatMap_singleton, Expr.request?]
  split <;> rfl

def Records (c : Command) (i : Instruction) (calls : List (Int32 × Trigger)) : Prop :=
  ∀ called, (∀ trigger ∈ c.trigger?, trigger = called) → calls = i.requests called

theorem reaches_command (opcode : Opcode) (c : Command) :
    Reaches ctx (command ctx opcode c) (Records c) := by
  have flatten : ∀ {Q : Instruction → List (Int32 × Trigger) → Prop},
      Reaches ctx (command ctx opcode c) Q → (∀ i calls, i.Flat → Q i calls → Records c i calls) →
        Reaches ctx (command ctx opcode c) (Records c) := by
    intro Q reaches records f r f' run
    obtain ⟨asked, effects, confined, given⟩ := reaches f r f' run
    refine ⟨asked, effects, confined, ?_⟩
    rintro i rfl
    obtain ⟨_, _, _, _, uses, _⟩ := step_command run
    exact records i _ uses.flat (given i rfl)
  have quietly : Emits (Effect.Local [ctx.script]) (command ctx opcode c) quiet →
      Reaches ctx (command ctx opcode c) (Records c) := by
    intro emits
    refine flatten (reaches_of_emits emits) ?_
    rintro i calls flat ⟨other, rfl⟩ called -
    exact (flat.requests_of_not_isRequest other).symm
  have mine : ctx.script ∈ [ctx.script] := List.mem_singleton.2 rfl
  cases c with
  | proc =>
    refine flatten (reaches_proc opcode) ?_
    rintro i calls flat ⟨id, callsOf, rfl⟩ called only
    rw [requests_of_callsOf callsOf flat, ← only .proc rfl]
  | invoke =>
    refine flatten (reaches_invoke opcode) ?_
    rintro i calls flat ⟨id, callsOf, rfl⟩ called only
    rw [requests_of_callsOf callsOf flat, ← only .clientScript rfl]
  | hook transmit =>
    refine flatten (reaches_hook opcode transmit) ?_
    rintro i calls flat ⟨handler, hooks, rfl⟩ called -
    rw [requests_of_hookTo hooks flat]
  | switch =>
    exact quietly (emits_then (emits_pop _) fun _ => emits_then emits_switchTable fun _ =>
      emits_then (emits_caseLabels _) fun _ => emits_pure rfl)
  | goto =>
    exact quietly (emits_then emits_intOperand fun _ => emits_then (emits_jump _) fun _ =>
      emits_pure rfl)
  | branchCompare =>
    exact quietly (emits_then emits_intOperand fun _ => emits_then (emits_jump _) fun _ =>
      emits_then (emits_pop _) fun _ => emits_then (emits_pop _) fun _ =>
        emits_then (emits_unify _ _) fun _ => emits_pure rfl)
  | discard type =>
    refine quietly (emits_then (emits_pop type) fun _ => emits_pure ?_)
    rfl
  | ret => exact quietly (emits_ret mine)
  | enum => exact quietly (emits_enum mine opcode)
  | enumHasOutput => exact quietly (emits_enumHasOutput mine opcode)
  | defineArray => exact quietly (emits_defineArray mine opcode)
  | pushArrayInt => exact quietly (emits_pushArrayInt mine opcode)
  | popArrayInt => exact quietly (emits_popArrayInt mine opcode)
  | constant type => exact quietly (emits_constant mine type)
  | load storage => exact quietly (emits_load mine storage)
  | store storage => exact quietly (emits_store mine storage)
  | joinString => exact quietly (emits_joinString mine)
  | basic signature => exact quietly (emits_basic mine signature)
  | param receiver => exact quietly (emits_param mine opcode receiver)
  | dbGetField => exact quietly (emits_dbGetField mine opcode)

def CallsBy (table : Table) (called : Trigger) : Prop :=
  ∀ opcode c, table.lookup? opcode = some c → ∀ trigger ∈ c.trigger?, trigger = called

variable {table : Table}

theorem reaches_position (opcode : Opcode) : Reaches ctx (position ctx table opcode)
    fun i calls => ∀ called, CallsBy table called → calls = i.requests called := by
  unfold position
  split
  · intro f r f' run
    cases run
    exact ⟨[], by simp, by simp [Confined], by simp⟩
  · rename_i c found
    refine reaches_last (reaches_command opcode c) fun i => emits_get_bind fun f => ?_
    split
    · exact emits_imbalance _
    · exact emits_pure fun calls records called all => records called (all opcode c found)

theorem reaches_positions (opcodes : List Opcode) (pc : Nat) :
    Reaches ctx (positions ctx table pc opcodes) fun is calls =>
      ∀ called, CallsBy table called → calls = is.flatMap (Instruction.requests called) := by
  induction opcodes generalizing pc with
  | nil => exact reaches_pure fun _ _ => rfl
  | cons opcode rest ih =>
    have goOn :
        Emits (Effect.Local [ctx.script]) (modify fun f => { f with pc := pc }) anything := by
      intro f r f' run
      cases run
      exact ⟨⟨[], by simp, by simp⟩, fun _ _ => trivial⟩
    refine reaches_then goOn fun _ => reaches_bind (reaches_position opcode) fun i => ?_
    refine reaches_last (ih (pc + 1)) fun is => emits_pure ?_
    intro calls' later calls one called all
    rw [one called all, later called all, List.flatMap_cons]

theorem requests_withLabels (called : Trigger) (targets : List Label) (pc : Nat)
    (is : List Instruction) :
    (withLabels targets pc is).flatMap (Instruction.requests called) =
      is.flatMap (Instruction.requests called) := by
  induction is generalizing pc with
  | nil => rfl
  | cons i is ih =>
    rw [withLabels, List.flatMap_append, List.flatMap_cons, List.flatMap_cons, ih]
    split <;> rfl

theorem reaches_function : Reaches ctx (function ctx table) fun f calls =>
    ∀ called, CallsBy table called → calls = f.requests called := by
  unfold function
  refine reaches_last (reaches_positions ctx.code.opcodes 0) fun insns =>
    emits_get_bind fun f => ?_
  split
  · exact emits_imbalance _
  · split
    · exact emits_malformed _
    · refine emits_then (emits_parameters _ (by simp)) fun _ => ?_
      refine emits_pure fun calls given called all => ?_
      rw [given called all, Function.requests, instructions_anchored, requests_withLabels]

end

end Lift

/-- What a script asks for names variables of its own, global ones and such of scripts that it asks
    for; and if it lifts, the calls that it records are those in its code. -/
theorem Context.lift_reaches (ctx : Context) (table : Table) :
    Confined ctx.script (ctx.lift table).effects ∧
      ∀ f called, (ctx.lift table).result = .ok f → Lift.CallsBy table called →
        (ctx.lift table).effects.filterMap Effect.edge? = f.requests called := by
  unfold Context.lift
  rcases run : (Lift.function ctx table).run.run Frame.start with ⟨result, frame⟩
  obtain ⟨asked, effects, confined, given⟩ := Lift.reaches_function _ _ _ run
  obtain rfl : frame.effects = asked := effects
  exact ⟨confined, fun f called ok all => given f ok called all⟩

end ClientScript
