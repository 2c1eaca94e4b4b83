import ClientScript.Proofs.Interpretation.Stepwise
import ClientScript.Proofs.Lift.Reach

/-!
Interpretation position by position. A script in progress has a program counter and what is still to
perform of what its position asks for; when that is performed, it moves on to the next position or
is left. Main statement: from the question for a script this comes to an end, with what interpreting
the script gives; on the way only scripts that exist and are not in progress are started, and no
program counter moves back.
-/
namespace ClientScript

namespace Lift

variable (ctx : Context) (table : Table)

/-- What each position asks for, up to one that fails; and behind the last position, what of all
    effects is asked for then. -/
def stages (all : List Effect) : Nat → List Opcode → Frame → List (List Effect)
  | _, [], f => [all.drop f.effects.length]
  | pc, opcode :: rest, f =>
    match (position ctx table opcode).run.run { f with pc := pc } with
    | (.ok _, f') => f'.effects.drop f.effects.length :: stages all (pc + 1) rest f'
    | (.error _, f') => [f'.effects.drop f.effects.length]

variable {ctx table} {all : List Effect} {pc : Nat} {opcode : Opcode} {opcodes : List Opcode}
  {f f' : Frame}

theorem prefix_of_emits {α : Type} {P : Effect → Prop} {m : Lift α} {r : Except Failure α}
    (emits : Emits P m anything) (run : m.run.run f = (r, f')) : f.effects <+: f'.effects := by
  obtain ⟨⟨asked, effects, -⟩, -⟩ := emits f r f' run
  exact ⟨asked, effects.symm⟩

theorem prefix_position {r : Except Failure Instruction}
    (run : (position ctx table opcode).run.run { f with pc := pc } = (r, f')) :
    f.effects <+: f'.effects := by
  obtain ⟨asked, effects, -⟩ := reaches_position opcode _ r f' run
  exact ⟨asked, effects.symm⟩

theorem prefix_positions {r : Except Failure (List Instruction)}
    (run : (positions ctx table pc opcodes).run.run f = (r, f')) : f.effects <+: f'.effects := by
  obtain ⟨asked, effects, -⟩ := reaches_positions opcodes pc f r f' run
  exact ⟨asked, effects.symm⟩

theorem run_positions_cons {rest : List Opcode} {r : Except Failure (List Instruction)}
    (run : (positions ctx table pc (opcode :: rest)).run.run f = (r, f')) :
    (∃ e, (position ctx table opcode).run.run { f with pc := pc } = (.error e, f') ∧
      r = .error e) ∨
    ∃ i f₁ r', (position ctx table opcode).run.run { f with pc := pc } = (.ok i, f₁) ∧
      (positions ctx table (pc + 1) rest).run.run f₁ = (r', f') ∧
      ∀ e, r = .error e ↔ r' = .error e := by
  rw [positions] at run
  rcases run_bind run with ⟨e, moved, -⟩ | ⟨_, moved, at_pc, run⟩
  · cases moved
  obtain rfl : { f with pc := pc } = moved := congrArg Prod.snd at_pc
  rcases run_bind run with ⟨e, failed, rfl⟩ | ⟨i, f₁, lifted, run⟩
  · exact .inl ⟨e, failed, rfl⟩
  · refine .inr ⟨i, f₁, ?_⟩
    rcases run_bind run with ⟨e, failed, rfl⟩ | ⟨is, f₂, later, ended⟩
    · exact ⟨.error e, lifted, failed, fun _ => Iff.rfl⟩
    · cases ended
      exact ⟨.ok is, lifted, later, by simp⟩

theorem flatten_stages {r : Except Failure (List Instruction)}
    (run : (positions ctx table pc opcodes).run.run f = (r, f')) (within : f'.effects <+: all)
    (failing : ∀ e, r = .error e → f'.effects = all) :
    (stages ctx table all pc opcodes f).flatten = all.drop f.effects.length := by
  induction opcodes generalizing pc f r with
  | nil => simp [stages]
  | cons opcode rest ih =>
    rw [stages]
    rcases run_positions_cons run with ⟨e, failed, rfl⟩ | ⟨i, f₁, r', lifted, later, same⟩
    · rw [failed, ← failing e rfl]
      simp
    · rw [lifted]
      obtain ⟨asked, effects⟩ := prefix_position lifted
      obtain ⟨others, rfl⟩ := (prefix_positions later).trans within
      rw [List.flatten_cons, ih later fun e err => failing e ((same e).2 err), ← effects]
      simp

theorem length_stages (all : List Effect) (pc : Nat) (opcodes : List Opcode) (f : Frame) :
    0 < (stages ctx table all pc opcodes f).length ∧
      (stages ctx table all pc opcodes f).length ≤ opcodes.length + 1 := by
  induction opcodes generalizing pc f with
  | nil => simp [stages]
  | cons opcode rest ih =>
    rw [stages]
    split
    · have := ih (pc + 1) ‹Frame›
      simp only [List.length_cons]
      omega
    · simp

theorem run_function {r : Except Failure Function}
    (run : (function ctx table).run.run f = (r, f')) :
    ∃ r₁ f₁, (positions ctx table 0 ctx.code.opcodes).run.run f = (r₁, f₁) ∧
      f₁.effects <+: f'.effects ∧ ∀ e, r₁ = .error e → f₁.effects = f'.effects := by
  rw [function] at run
  rcases run_bind run with ⟨e, failed, rfl⟩ | ⟨is, f₁, lifted, run⟩
  · exact ⟨_, f', failed, List.prefix_rfl, fun _ _ => rfl⟩
  · refine ⟨_, f₁, lifted, ?_, by simp⟩
    refine prefix_of_emits (emits_get_bind (P := Effect.Local [ctx.script]) fun f => ?_) run
    split
    · exact emits_imbalance _
    · split
      · exact emits_malformed _
      · exact emits_then (emits_parameters _ (by simp)) fun _ => emits_pure trivial

end Lift

def Context.stages (ctx : Context) (table : Table) : List (List Effect) :=
  Lift.stages ctx table (ctx.lift table).effects 0 ctx.code.opcodes .start

theorem Context.flatten_stages (ctx : Context) (table : Table) :
    (ctx.stages table).flatten = (ctx.lift table).effects := by
  rw [Context.stages, Context.lift]
  rcases run : (Lift.function ctx table).run.run Frame.start with ⟨result, frame⟩
  obtain ⟨r, f, positions, within, failing⟩ := Lift.run_function run
  exact Lift.flatten_stages positions within failing

structure Cursor where
  script : Int32
  pc : Nat
  queue : List Effect

/-- The scripts in progress with their positions, the innermost first; the stores; and an answer
    that the script which asked for it has not taken yet. -/
structure Scene where
  stack : List Cursor
  stores : Stores
  answer : Option (Int32 × Except Failure Function)

def Scene.active (v : Scene) : List Int32 := v.stack.map Cursor.script

namespace Setting

variable (g : Setting)

def stagesOf (script : Int32) : List (List Effect) :=
  match g.scripts.get? script with
  | some code => (g.context script code).stages g.table
  | none => []

/-- Ask for a script: a kept result is the answer; else it starts at its first position, if it
    exists and there are not too many in progress. -/
def request (script : Int32) (stack : List Cursor) (s : Stores) : Scene :=
  match s.results.get? script with
  | some r => ⟨stack, s, some (script, r)⟩
  | none =>
    if g.config.maxCallDepth ≤ stack.length then
      ⟨stack, s, some (script, .error (.recursionLimit g.config.maxCallDepth))⟩
    else if (g.scripts.get? script).isSome then
      ⟨⟨script, 0, (g.stagesOf script).headD []⟩ :: stack, mentioned script s, none⟩
    else ⟨stack, s, some (script, .error (.malformed script .unknownScript))⟩

def quit (script : Int32) (r : Except Failure Function) (stack : List Cursor) (s : Stores) :
    Scene :=
  ⟨stack, s.keep script r, some (script, r)⟩

def proceed (c : Cursor) (stack : List Cursor) : Except Failure Unit × Stores → Scene
  | (.ok _, s) => ⟨c :: stack, s, none⟩
  | (.error e, s) => quit c.script (.error e) stack s

/-- The innermost script takes its answer, performs an effect, enters a callee that is not in
    progress, goes to its next position or is left. -/
def tick (v : Scene) : Scene :=
  match v.stack, v.answer with
  | [], _ => v
  | c :: stack, some (callee, r) => proceed c stack (taken c.script callee r, v.stores)
  | ⟨script, pc, []⟩ :: stack, none =>
    match (g.stagesOf script)[pc + 1]? with
    | some queue => ⟨⟨script, pc + 1, queue⟩ :: stack, v.stores, none⟩
    | none => quit script (g.resultOf script) stack v.stores
  | ⟨script, pc, .enter callee :: queue⟩ :: stack, none =>
    if callee ∈ v.active then ⟨⟨script, pc, queue⟩ :: stack, v.stores, none⟩
    else g.request callee (⟨script, pc, queue⟩ :: stack) v.stores
  | ⟨script, pc, e :: queue⟩ :: stack, none =>
    proceed ⟨script, pc, queue⟩ stack (performHere script v.stores e)

inductive Ticks : Scene → Scene → Prop where
  | idle (s : Stores) (a : Option (Int32 × Except Failure Function)) : Ticks ⟨[], s, a⟩ ⟨[], s, a⟩
  | take (c : Cursor) (stack : List Cursor) (s : Stores) (callee : Int32)
      (r : Except Failure Function) : Ticks ⟨c :: stack, s, some (callee, r)⟩
        (proceed c stack (taken c.script callee r, s))
  | move (id : Int32) (pc : Nat) (queue : List Effect) (stack : List Cursor) (s : Stores)
      (next : (g.stagesOf id)[pc + 1]? = some queue) :
      Ticks ⟨⟨id, pc, []⟩ :: stack, s, none⟩ ⟨⟨id, pc + 1, queue⟩ :: stack, s, none⟩
  | done (id : Int32) (pc : Nat) (stack : List Cursor) (s : Stores)
      (last : (g.stagesOf id)[pc + 1]? = none) :
      Ticks ⟨⟨id, pc, []⟩ :: stack, s, none⟩ (quit id (g.resultOf id) stack s)
  | skip (id callee : Int32) (pc : Nat) (queue : List Effect) (stack : List Cursor) (s : Stores)
      (within : callee ∈ id :: stack.map Cursor.script) :
      Ticks ⟨⟨id, pc, .enter callee :: queue⟩ :: stack, s, none⟩ ⟨⟨id, pc, queue⟩ :: stack, s, none⟩
  | enter (id callee : Int32) (pc : Nat) (queue : List Effect) (stack : List Cursor) (s : Stores)
      (other : callee ∉ id :: stack.map Cursor.script) :
      Ticks ⟨⟨id, pc, .enter callee :: queue⟩ :: stack, s, none⟩
        (g.request callee (⟨id, pc, queue⟩ :: stack) s)
  | perform (id : Int32) (pc : Nat) (e : Effect) (queue : List Effect) (stack : List Cursor)
      (s : Stores) (quiet : ¬ ∃ callee, e = .enter callee) :
      Ticks ⟨⟨id, pc, e :: queue⟩ :: stack, s, none⟩
        (proceed ⟨id, pc, queue⟩ stack (performHere id s e))

variable {g} {v v' : Scene} {c : Cursor} {stack : List Cursor} {s : Stores} {id : Int32}
  {code : Script}

theorem tick_enter (id callee : Int32) (pc : Nat) (queue : List Effect) (stack : List Cursor)
    (s : Stores) : g.tick ⟨⟨id, pc, .enter callee :: queue⟩ :: stack, s, none⟩ =
      if callee ∈ id :: stack.map Cursor.script then ⟨⟨id, pc, queue⟩ :: stack, s, none⟩
      else g.request callee (⟨id, pc, queue⟩ :: stack) s := rfl

theorem ticks_tick (g : Setting) (v : Scene) : g.Ticks v (g.tick v) := by
  obtain ⟨stack, s, a⟩ := v
  match stack, a with
  | [], a => exact .idle s a
  | c :: stack, some (callee, r) => exact .take c stack s callee r
  | ⟨id, pc, []⟩ :: stack, none =>
    cases next : (g.stagesOf id)[pc + 1]? with
    | some queue =>
      have moved : g.tick ⟨⟨id, pc, []⟩ :: stack, s, none⟩ =
          ⟨⟨id, pc + 1, queue⟩ :: stack, s, none⟩ := by simp [tick, next]
      exact moved ▸ .move id pc queue stack s next
    | none =>
      have left : g.tick ⟨⟨id, pc, []⟩ :: stack, s, none⟩ = quit id (g.resultOf id) stack s := by
        simp [tick, next]
      exact left ▸ .done id pc stack s next
  | ⟨id, pc, e :: queue⟩ :: stack, none =>
    rcases Classical.em (∃ callee, e = .enter callee) with ⟨callee, rfl⟩ | quiet
    · rw [tick_enter]
      split
      · rename_i within
        exact .skip id callee pc queue stack s within
      · rename_i other
        exact .enter id callee pc queue stack s other
    · have performed : g.tick ⟨⟨id, pc, e :: queue⟩ :: stack, s, none⟩ =
          proceed ⟨id, pc, queue⟩ stack (performHere id s e) := by
        cases e with
        | enter callee => exact absurd ⟨callee, rfl⟩ quiet
        | _ => rfl
      exact performed ▸ .perform id pc e queue stack s quiet

theorem stagesOf_eq (found : g.scripts.get? id = some code) :
    g.stagesOf id = (g.context id code).stages g.table := by
  rw [stagesOf, found]

theorem flatten_stagesOf (g : Setting) (id : Int32) : (g.stagesOf id).flatten = g.effectsOf id := by
  rw [stagesOf, effectsOf]
  cases g.scripts.get? id with
  | some code => exact Context.flatten_stages ..
  | none => rfl

theorem length_stagesOf (found : g.scripts.get? id = some code) :
    0 < (g.stagesOf id).length ∧ (g.stagesOf id).length ≤ code.length + 1 := by
  rw [stagesOf_eq found]
  exact Lift.length_stages ..

def pending (g : Setting) (c : Cursor) : Pending :=
  ⟨c.script, c.queue ++ ((g.stagesOf c.script).drop (c.pc + 1)).flatten⟩

def moment (g : Setting) (v : Scene) : Moment := ⟨v.stack.map g.pending, v.stores, v.answer⟩

theorem scripts_pending (stack : List Cursor) :
    (stack.map g.pending).map Pending.script = stack.map Cursor.script := by
  simp [pending, Function.comp_def]

theorem moment_proceed (c : Cursor) (stack : List Cursor) (outcome : Except Failure Unit × Stores) :
    g.moment (proceed c stack outcome) = goOn (g.pending c) (stack.map g.pending) outcome := by
  obtain ⟨e | u, s⟩ := outcome <;> rfl

theorem moment_request (id : Int32) (stack : List Cursor) (s : Stores) :
    g.moment (g.request id stack s) = g.ask id (stack.map g.pending) s := by
  have first : g.pending ⟨id, 0, (g.stagesOf id).headD []⟩ = ⟨id, g.effectsOf id⟩ := by
    rw [pending, ← flatten_stagesOf]
    cases g.stagesOf id <;> simp
  unfold request ask
  rw [List.length_map, ← first]
  cases s.results.get? id with
  | some r => rfl
  | none =>
    dsimp only
    split
    · rfl
    · split <;> rfl

def ahead (g : Setting) (v : Scene) : Nat :=
  match v.stack with
  | [] => 0
  | c :: _ => (g.stagesOf c.script).length - c.pc

/-- A tick is a step, or the innermost script goes to its next position. -/
theorem Ticks.moment (ticks : g.Ticks v v') : g.moment v' = g.step (g.moment v) ∨
    g.moment v' = g.moment v ∧ g.ahead v' < g.ahead v := by
  cases ticks with
  | idle s a => exact .inl rfl
  | take c stack s callee r => exact .inl (moment_proceed ..)
  | move id pc queue stack s next =>
    obtain ⟨inside, at_pc⟩ := List.getElem?_eq_some_iff.1 next
    refine .inr ⟨?_, ?_⟩
    · have onward := List.drop_eq_getElem_cons inside
      rw [at_pc] at onward
      simp [Setting.moment, pending, onward]
    · simp only [ahead]
      omega
  | done id pc stack s last =>
    left
    have nothing : (g.stagesOf id).drop (pc + 1) = [] :=
      List.drop_eq_nil_of_le (List.getElem?_eq_none_iff.1 last)
    simp [Setting.moment, pending, nothing, step, quit, leave]
  | skip id callee pc queue stack s within =>
    left
    simp only [Setting.moment, List.map_cons, pending, List.cons_append, step_enter]
    rw [if_pos (by rwa [scripts_pending])]
  | enter id callee pc queue stack s other =>
    left
    rw [moment_request]
    simp only [Setting.moment, List.map_cons, pending, List.cons_append, step_enter]
    rw [if_neg (by rwa [scripts_pending])]
  | perform id pc e queue stack s quiet =>
    left
    rw [moment_proceed]
    exact (step_here quiet).symm

/-- Where steps lead, ticks do: by the number of steps, and of the positions that the innermost
    script has before it. -/
theorem ticks_of_steps {n : Nat} {m : Moment} (steps : g.step^[n] (g.moment v) = m) :
    ∃ k, g.moment (g.tick^[k] v) = m := by
  induction n generalizing v with
  | zero => exact ⟨0, steps⟩
  | succ n fewer =>
    induction positions : g.ahead v using Nat.strong_induction_on generalizing v with
    | _ positions nearer =>
      rcases (g.ticks_tick v).moment with step | ⟨same, less⟩
      · obtain ⟨k, ended⟩ := fewer (v := g.tick v) (by rw [step]; exact steps)
        exact ⟨k + 1, ended⟩
      · -- a move takes no step, but there are only so many positions
        obtain ⟨k, ended⟩ := nearer _ (positions ▸ less) (by rw [same]; exact steps) rfl
        exact ⟨k + 1, ended⟩

theorem scene_of_moment {s : Stores} {a : Option (Int32 × Except Failure Function)}
    (h : g.moment v = ⟨[], s, a⟩) : v = ⟨[], s, a⟩ := by
  obtain ⟨stack, s', a'⟩ := v
  obtain ⟨none, rfl, rfl⟩ := Moment.mk.inj h
  obtain rfl : stack = [] := List.map_eq_nil_iff.1 none
  rfl

theorem ticks_interpret (g : Setting) (id : Int32) (s : Stores) : ∃ k,
    g.tick^[k] (g.request id [] s) =
      ⟨[], (g.interpret id s).2, some (id, (g.interpret id s).1)⟩ := by
  obtain ⟨n, steps⟩ := leads_interpret g id s
  have asked : g.moment (g.request id [] s) = g.ask id [] s := moment_request ..
  obtain ⟨k, ended⟩ := ticks_of_steps (asked.symm ▸ steps)
  exact ⟨k, scene_of_moment ended⟩

/-- From the scripts in progress to those after a tick: the innermost one stays where it is or goes
    to its next position; or it stays, and a script that exists and is not in progress starts at its
    first position; or it is left. -/
inductive Onward (g : Setting) : List Cursor → List Cursor → Prop where
  | rests : Onward g [] []
  | goes {c c' : Cursor} {stack : List Cursor} (same : c'.script = c.script)
      (onward : c'.pc = c.pc ∨ c'.pc = c.pc + 1 ∧ c'.pc < (g.stagesOf c.script).length) :
      Onward g (c :: stack) (c' :: stack)
  | starts {c c' started : Cursor} {stack : List Cursor} (same : c'.script = c.script)
      (stays : c'.pc = c.pc) (known : started.script ∈ g.scripts.keys)
      (other : started.script ∉ (c :: stack).map Cursor.script) (first : started.pc = 0)
      (room : (c :: stack).length < g.config.maxCallDepth) :
      Onward g (c :: stack) (started :: c' :: stack)
  | leaves (c : Cursor) (stack : List Cursor) : Onward g (c :: stack) stack

theorem onward_proceed {c' : Cursor} (same : c'.script = c.script) (stays : c'.pc = c.pc)
    (outcome : Except Failure Unit × Stores) :
    g.Onward (c :: stack) (proceed c' stack outcome).stack := by
  obtain ⟨e | u, s⟩ := outcome
  · exact .leaves c stack
  · exact .goes same (.inl stays)

theorem Ticks.onward (ticks : g.Ticks v v') : g.Onward v.stack v'.stack := by
  cases ticks with
  | idle s a => exact .rests
  | take c stack s callee r => exact onward_proceed rfl rfl _
  | move id pc queue stack s next =>
    exact .goes rfl (.inr ⟨rfl, (List.getElem?_eq_some_iff.1 next).1⟩)
  | done id pc stack s last => exact .leaves _ stack
  | skip id callee pc queue stack s within => exact .goes rfl (.inl rfl)
  | enter id callee pc queue stack s other =>
    unfold request
    split
    · exact .goes rfl (.inl rfl)
    · split
      · exact .goes rfl (.inl rfl)
      · rename_i room
        split
        · rename_i known
          exact .starts rfl rfl (IntMap.mem_keys_iff.2 known) other rfl (Nat.lt_of_not_le room)
        · exact .goes rfl (.inl rfl)
  | perform id pc e queue stack s quiet =>
    exact @onward_proceed g ⟨id, pc, e :: queue⟩ stack ⟨id, pc, queue⟩ rfl rfl _

/-- The scripts in progress are distinct ones that exist, no more than the limit, each at one of its
    positions or behind the last. -/
structure Orderly (g : Setting) (stack : List Cursor) : Prop where
  distinct : (stack.map Cursor.script).Nodup
  known : ∀ c ∈ stack, c.script ∈ g.scripts.keys
  shallow : stack.length ≤ g.config.maxCallDepth
  inside : ∀ c ∈ stack, c.pc < (g.stagesOf c.script).length

theorem first_inside (known : id ∈ g.scripts.keys) : 0 < (g.stagesOf id).length := by
  obtain ⟨code, found⟩ := Option.isSome_iff_exists.1 (IntMap.mem_keys_iff.1 known)
  exact (length_stagesOf found).1

theorem Orderly.replace {c' : Cursor} (h : g.Orderly (c :: stack)) (same : c'.script = c.script)
    (inside : c'.pc < (g.stagesOf c.script).length) : g.Orderly (c' :: stack) := by
  refine ⟨?_, ?_, h.shallow, ?_⟩
  · rw [List.map_cons, same]
    exact h.distinct
  · intro x member
    rcases List.mem_cons.1 member with rfl | outer
    · exact same ▸ h.known c List.mem_cons_self
    · exact h.known x (List.mem_cons_of_mem _ outer)
  · intro x member
    rcases List.mem_cons.1 member with rfl | outer
    · exact same ▸ inside
    · exact h.inside x (List.mem_cons_of_mem _ outer)

theorem Orderly.start (h : g.Orderly stack) (known : c.script ∈ g.scripts.keys)
    (other : c.script ∉ stack.map Cursor.script) (first : c.pc = 0)
    (room : stack.length < g.config.maxCallDepth) : g.Orderly (c :: stack) := by
  refine ⟨List.nodup_cons.2 ⟨other, h.distinct⟩, ?_, room, ?_⟩
  · intro x member
    rcases List.mem_cons.1 member with rfl | outer
    · exact known
    · exact h.known x outer
  · intro x member
    rcases List.mem_cons.1 member with rfl | outer
    · exact first ▸ first_inside known
    · exact h.inside x outer

theorem Orderly.advance {stack' : List Cursor} (h : g.Orderly stack)
    (ticked : g.Onward stack stack') : g.Orderly stack' := by
  cases ticked with
  | rests => exact h
  | @goes c c' stack same onward =>
    refine h.replace same ?_
    rcases onward with stays | ⟨-, inside⟩
    · exact stays ▸ h.inside c List.mem_cons_self
    · exact inside
  | @starts c c' started stack same stays known other first room =>
    refine (h.replace same (stays ▸ h.inside c List.mem_cons_self)).start known ?_ first room
    rwa [List.map_cons, same]
  | leaves c =>
    obtain ⟨-, distinct⟩ := List.nodup_cons.1 h.distinct
    exact ⟨distinct, fun x member => h.known x (List.mem_cons_of_mem _ member),
      (Nat.le_succ _).trans h.shallow, fun x member => h.inside x (List.mem_cons_of_mem _ member)⟩

theorem orderly_request (g : Setting) (id : Int32) (s : Stores) :
    g.Orderly (g.request id [] s).stack := by
  have idle : g.Orderly [] := ⟨List.nodup_nil, by simp, Nat.zero_le _, by simp⟩
  unfold request
  split
  · exact idle
  · split
    · exact idle
    · rename_i room
      split
      · rename_i known
        exact idle.start (IntMap.mem_keys_iff.2 known) (by simp) rfl (Nat.lt_of_not_le room)
      · exact idle

theorem orderly_tick (h : g.Orderly v.stack) (k : Nat) : g.Orderly (g.tick^[k] v).stack := by
  induction k with
  | zero => exact h
  | succ k ih =>
    rw [Function.iterate_succ_apply']
    exact ih.advance (g.ticks_tick _).onward

theorem Orderly.length_le (h : g.Orderly stack) : stack.length ≤ g.scripts.keys.length := by
  have among : stack.map Cursor.script ⊆ g.scripts.keys := by
    intro x member
    obtain ⟨c, inside, rfl⟩ := List.mem_map.1 member
    exact h.known c inside
  simpa using h.distinct.length_le_of_subset among

/-- Interpretation comes to an end, whatever calls what: from the question for a script, ticks lead
    to what interpreting it gives. All the way the scripts in progress are distinct ones that exist,
    no more than the limit on nested calls and no more than there are scripts; each is at one of its
    positions or behind the last; and each tick starts a script that is not in progress, leaves one,
    or moves a program counter on. -/
theorem interpretation_ends (g : Setting) (id : Int32) (s : Stores) :
    (∃ k, g.tick^[k] (g.request id [] s) =
      ⟨[], (g.interpret id s).2, some (id, (g.interpret id s).1)⟩) ∧
    ∀ k, (g.tick^[k] (g.request id [] s)).active.Nodup ∧
      (∀ x ∈ (g.tick^[k] (g.request id [] s)).active, x ∈ g.scripts.keys) ∧
      (g.tick^[k] (g.request id [] s)).stack.length ≤
        min g.config.maxCallDepth g.scripts.keys.length ∧
      (∀ c ∈ (g.tick^[k] (g.request id [] s)).stack, ∃ code,
        g.scripts.get? c.script = some code ∧ c.pc ≤ code.length) ∧
      g.Onward (g.tick^[k] (g.request id [] s)).stack
        (g.tick^[k + 1] (g.request id [] s)).stack := by
  refine ⟨ticks_interpret g id s, fun k => ?_⟩
  have orderly := orderly_tick (orderly_request g id s) k
  refine ⟨orderly.distinct, ?_, le_min orderly.shallow orderly.length_le, ?_, ?_⟩
  · intro x member
    obtain ⟨c, inside, rfl⟩ := List.mem_map.1 member
    exact orderly.known c inside
  · intro c member
    obtain ⟨code, found⟩ :=
      Option.isSome_iff_exists.1 (IntMap.mem_keys_iff.1 (orderly.known c member))
    have inside := orderly.inside c member
    have length := (length_stagesOf found).2
    exact ⟨code, found, by omega⟩
  · rw [Function.iterate_succ_apply']
    exact (g.ticks_tick _).onward

end Setting

namespace Sample

theorem conceding_ends :
    (∃ k, (conceding.tick^[k] (conceding.request 0 [] .start)).stack = []) ∧
    (conceding.tick^[1] (conceding.request 0 [] .start)).stack.map (fun c => (c.script, c.pc)) =
      [(1, 0), (0, 0)] ∧
    ∀ k, (conceding.tick^[k] (conceding.request 0 [] .start)).stack.length ≤ 2 := by
  obtain ⟨⟨k, ended⟩, each⟩ := Setting.interpretation_ends conceding 0 .start
  have two : conceding.scripts.keys.length = 2 := by decide +kernel
  refine ⟨⟨k, by rw [ended]⟩, by decide +kernel, fun k => ?_⟩
  obtain ⟨-, -, short, -⟩ := each k
  exact (Nat.le_min.1 short).2.trans (Nat.le_of_eq two)

end Sample

end ClientScript
