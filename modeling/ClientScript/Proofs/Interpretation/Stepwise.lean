import ClientScript.Proofs.Interpretation.Callers

/-!
Interpretation step by step. The scripts in progress are a stack, each with the effects that it has
still to perform; a step performs one effect, enters a callee or leaves a script with its result.
Main statement: the steps from the question for a script come to what interpreting it gives, with
the scripts in progress that there were.
-/
namespace ClientScript

structure Pending where
  script : Int32
  rest : List Effect

/-- A moment of a run: the scripts in progress, the innermost first; the stores; and an answer that
    the script which asked for it has not taken yet. -/
structure Moment where
  stack : List Pending
  stores : Stores
  answer : Option (Int32 × Except Failure Function)

def Moment.active (m : Moment) : List Int32 := m.stack.map Pending.script

namespace Setting

def resultOf (g : Setting) (script : Int32) : Except Failure Function :=
  match g.scripts.get? script with
  | some code => ((g.context script code).lift g.table).result
  | none => .error (.malformed script .unknownScript)

/-- Ask for a script: a kept result is the answer; else it comes to be in progress, if it exists and
    there are not too many in progress. -/
def ask (g : Setting) (script : Int32) (stack : List Pending) (s : Stores) : Moment :=
  match s.results.get? script with
  | some r => ⟨stack, s, some (script, r)⟩
  | none =>
    if g.config.maxCallDepth ≤ stack.length then
      ⟨stack, s, some (script, .error (.recursionLimit g.config.maxCallDepth))⟩
    else if (g.scripts.get? script).isSome then
      ⟨⟨script, g.effectsOf script⟩ :: stack, mentioned script s, none⟩
    else ⟨stack, s, some (script, .error (.malformed script .unknownScript))⟩

def leave (script : Int32) (r : Except Failure Function) (stack : List Pending) (s : Stores) :
    Moment :=
  ⟨stack, s.keep script r, some (script, r)⟩

def goOn (p : Pending) (stack : List Pending) : Except Failure Unit × Stores → Moment
  | (.ok _, s) => ⟨p :: stack, s, none⟩
  | (.error e, s) => leave p.script (.error e) stack s

def taken (caller callee : Int32) (r : Except Failure Function) : Except Failure Unit :=
  (r.map fun _ => ()).mapError (.calleeFailed caller callee)

def performHere (script : Int32) (s : Stores) (e : Effect) : Except Failure Unit × Stores :=
  s.perform script (fun _ s => (.ok (), s)) e

def step (g : Setting) (m : Moment) : Moment :=
  match m.stack, m.answer with
  | [], _ => m
  | p :: stack, some (callee, r) => goOn p stack (taken p.script callee r, m.stores)
  | ⟨script, []⟩ :: stack, none => leave script (g.resultOf script) stack m.stores
  | ⟨script, .enter callee :: rest⟩ :: stack, none =>
    if callee ∈ m.active then ⟨⟨script, rest⟩ :: stack, m.stores, none⟩
    else g.ask callee (⟨script, rest⟩ :: stack) m.stores
  | ⟨script, e :: rest⟩ :: stack, none =>
    goOn ⟨script, rest⟩ stack (performHere script m.stores e)

inductive Moves (g : Setting) : Moment → Moment → Prop where
  | idle (s : Stores) (a : Option (Int32 × Except Failure Function)) : Moves g ⟨[], s, a⟩ ⟨[], s, a⟩
  | take (p : Pending) (stack : List Pending) (s : Stores) (callee : Int32)
      (r : Except Failure Function) : Moves g ⟨p :: stack, s, some (callee, r)⟩
        (goOn p stack (taken p.script callee r, s))
  | done (id : Int32) (stack : List Pending) (s : Stores) : Moves g ⟨⟨id, []⟩ :: stack, s, none⟩
      (leave id (g.resultOf id) stack s)
  | skip (id callee : Int32) (rest : List Effect) (stack : List Pending) (s : Stores) :
      Moves g ⟨⟨id, .enter callee :: rest⟩ :: stack, s, none⟩ ⟨⟨id, rest⟩ :: stack, s, none⟩
  | enter (id callee : Int32) (rest : List Effect) (stack : List Pending) (s : Stores)
      (other : callee ∉ id :: stack.map Pending.script) :
      Moves g ⟨⟨id, .enter callee :: rest⟩ :: stack, s, none⟩
        (g.ask callee (⟨id, rest⟩ :: stack) s)
  | perform (id : Int32) (e : Effect) (rest : List Effect) (stack : List Pending) (s : Stores)
      (quiet : ¬ ∃ callee, e = .enter callee) : Moves g ⟨⟨id, e :: rest⟩ :: stack, s, none⟩
        (goOn ⟨id, rest⟩ stack (performHere id s e))

variable {g : Setting} {m m₁ m' : Moment} {p : Pending} {stack : List Pending} {s s' : Stores}
  {id callee : Int32} {depth : Nat}

theorem step_here {e : Effect} {rest : List Effect} (quiet : ¬ ∃ callee, e = .enter callee) :
    g.step ⟨⟨id, e :: rest⟩ :: stack, s, none⟩ = goOn ⟨id, rest⟩ stack (performHere id s e) := by
  cases e with
  | enter callee => exact absurd ⟨callee, rfl⟩ quiet
  | _ => rfl

theorem step_enter (g : Setting) (id callee : Int32) (rest : List Effect) (stack : List Pending)
    (s : Stores) : g.step ⟨⟨id, .enter callee :: rest⟩ :: stack, s, none⟩ =
      if callee ∈ id :: stack.map Pending.script then ⟨⟨id, rest⟩ :: stack, s, none⟩
      else g.ask callee (⟨id, rest⟩ :: stack) s := rfl

theorem moves_step (g : Setting) (m : Moment) : g.Moves m (g.step m) := by
  obtain ⟨stack, s, a⟩ := m
  match stack, a with
  | [], a => exact .idle s a
  | p :: stack, some (callee, r) => exact .take p stack s callee r
  | ⟨id, []⟩ :: stack, none => exact .done id stack s
  | ⟨id, e :: rest⟩ :: stack, none =>
    rcases Classical.em (∃ callee, e = .enter callee) with ⟨callee, rfl⟩ | quiet
    · rw [step_enter]
      split
      · exact .skip id callee rest stack s
      · rename_i other
        exact .enter id callee rest stack s other
    · rw [step_here quiet]
      exact .perform id e rest stack s quiet

def Leads (g : Setting) (m m' : Moment) : Prop := ∃ n, g.step^[n] m = m'

namespace Leads

theorem refl (g : Setting) (m : Moment) : g.Leads m m := ⟨0, rfl⟩

theorem one (g : Setting) (m : Moment) : g.Leads m (g.step m) := ⟨1, rfl⟩

theorem trans (first : g.Leads m m₁) (later : g.Leads m₁ m') : g.Leads m m' := by
  obtain ⟨n, rfl⟩ := first
  obtain ⟨k, rfl⟩ := later
  exact ⟨k + n, Function.iterate_add_apply ..⟩

end Leads

theorem resultOf_eq {code : Script} (found : g.scripts.get? id = some code) :
    g.resultOf id = ((g.context id code).lift g.table).result := by
  rw [resultOf, found]

theorem perform_eq_here {e : Effect} (quiet : ¬ ∃ callee, e = .enter callee)
    (enter : Int32 → Stores → Except Failure Unit × Stores) :
    s.perform id enter e = performHere id s e := by
  cases e with
  | enter callee => exact absurd ⟨callee, rfl⟩ quiet
  | _ => rfl

/-- What asking for a script is to come to, with the nesting that is left. -/
def Answers (g : Setting) (depth : Nat) : Prop :=
  ∀ id (stack : List Pending) s, stack.length + depth = g.config.maxCallDepth →
    g.Leads (g.ask id stack s) ⟨stack, (g.interpretAt depth (stack.map Pending.script) id s).2,
      some (id, (g.interpretAt depth (stack.map Pending.script) id s).1)⟩

theorem leads_perform (deeper : g.Answers depth)
    (room : stack.length + depth + 1 = g.config.maxCallDepth) (e : Effect) (rest : List Effect)
    (s : Stores) : g.Leads ⟨⟨id, e :: rest⟩ :: stack, s, none⟩
      (goOn ⟨id, rest⟩ stack
        (s.perform id (g.entering depth (stack.map Pending.script) id) e)) := by
  rcases Classical.em (∃ callee, e = .enter callee) with ⟨callee, rfl⟩ | quiet
  · refine .trans (.one ..) ?_
    rw [step_enter]
    simp only [Stores.perform, entering, enterWith]
    split
    · exact .refl ..
    · refine .trans (deeper callee (⟨id, rest⟩ :: stack) s (by simp; omega)) ?_
      simp only [List.map_cons]
      split <;> rename_i given <;> rw [given] <;> exact .one ..
  · rw [perform_eq_here quiet, ← step_here quiet]
    exact .one ..

theorem leads_performAll (deeper : g.Answers depth)
    (room : stack.length + depth + 1 = g.config.maxCallDepth) (es : List Effect) (s : Stores) :
    g.Leads ⟨⟨id, es⟩ :: stack, s, none⟩ (goOn ⟨id, []⟩ stack
      (s.performAll id (g.entering depth (stack.map Pending.script) id) es)) := by
  induction es generalizing s with
  | nil => exact .refl ..
  | cons e es ih =>
    refine .trans (leads_perform deeper room e es s) ?_
    rw [Stores.performAll]
    split <;> rename_i stepped <;> rw [stepped]
    · exact ih _
    · exact .refl ..

/-- Asking for a script comes to its interpretation, with the scripts in progress that there
    were. -/
theorem leads_interpretAt (g : Setting) (depth : Nat) : g.Answers depth := by
  induction depth with
  | zero =>
    intro id stack s room
    cases kept : s.results.get? id with
    | some r => simpa [ask, kept, interpretAt_kept kept] using Leads.refl ..
    | none =>
      have deep : g.config.maxCallDepth ≤ stack.length := by omega
      simpa [ask, kept, interpretAt_zero kept, deep] using Leads.refl ..
  | succ depth ih =>
    intro id stack s room
    have shallow : ¬ g.config.maxCallDepth ≤ stack.length := by omega
    cases kept : s.results.get? id with
    | some r => simpa [ask, kept, interpretAt_kept kept] using Leads.refl ..
    | none =>
      cases found : g.scripts.get? id with
      | none => simpa [ask, kept, found, shallow, interpretAt] using Leads.refl ..
      | some code =>
        obtain ⟨outcome, s₁, performed, run⟩ :=
          interpretAt_succ kept found depth (stack.map Pending.script)
        have entered :
            g.ask id stack s = ⟨⟨id, g.effectsOf id⟩ :: stack, mentioned id s, none⟩ := by
          simp [ask, kept, found, shallow]
        have all : g.Leads ⟨⟨id, g.effectsOf id⟩ :: stack, mentioned id s, none⟩ _ :=
          leads_performAll ih (by omega) (g.effectsOf id) (mentioned id s)
        rw [performed] at all
        rw [entered, run, ← resultOf_eq found]
        refine all.trans ?_
        cases outcome with
        | ok u => exact .one ..
        | error e => exact .refl ..

theorem leads_interpret (g : Setting) (id : Int32) (s : Stores) : g.Leads (g.ask id [] s)
    ⟨[], (g.interpret id s).2, some (id, (g.interpret id s).1)⟩ :=
  leads_interpretAt g g.config.maxCallDepth id [] s (by simp)

/-- From one moment of a run to the next: by a step, or, where no script is in progress, by the next
    question. -/
inductive Next (g : Setting) : Moment → Moment → Prop where
  | step (m : Moment) : Next g m (g.step m)
  | ask (id : Int32) {m : Moment} (idle : m.stack = []) : Next g m (g.ask id [] m.stores)

def Later (g : Setting) : Moment → Moment → Prop := Relation.ReflTransGen g.Next

def Moments (g : Setting) : Moment → Prop := g.Later ⟨[], .start, none⟩

theorem Leads.later (h : g.Leads m m') : g.Later m m' := by
  obtain ⟨n, rfl⟩ := h
  induction n with
  | zero => exact .refl
  | succ n ih =>
    rw [Function.iterate_succ_apply']
    exact ih.tail (.step _)

theorem Moments.interpret {a : Option (Int32 × Except Failure Function)}
    (h : g.Moments ⟨[], s, a⟩) (id : Int32) :
    g.Moments ⟨[], (g.interpret id s).2, some (id, (g.interpret id s).1)⟩ :=
  (h.tail (.ask id rfl)).trans (leads_interpret g id s).later

theorem moments_reached (h : g.Reached s) : ∃ a, g.Moments ⟨[], s, a⟩ := by
  induction h with
  | start => exact ⟨none, .refl⟩
  | interpret id _ ih =>
    obtain ⟨a, moments⟩ := ih
    exact ⟨_, moments.interpret id⟩

theorem moments_run (g : Setting) (turns : List Turn) : ∃ a, g.Moments ⟨[], g.run turns, a⟩ :=
  moments_reached (reached_run g turns)

end Setting

end ClientScript
