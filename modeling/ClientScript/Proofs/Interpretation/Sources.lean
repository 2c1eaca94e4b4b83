import ClientScript.Proofs.Interpretation.Kept

/-!
What failures of a run stem from: the limit on nested calls, a conflict of types, a script that does
not exist, or one that does not lift. Main statement: at the bottom of each failure that a run gives
there is one of these.
-/
namespace ClientScript

theorem Failure.innermost_of_isOwn {e : Failure} (own : e.isOwn) : e.innermost = e := by
  cases e <;> simp_all [isOwn, innermost]

namespace Setting

/-- A failure that does not come from a callee. -/
inductive Source (g : Setting) : Failure → Prop where
  | limit : Source g (.recursionLimit g.config.maxCallDepth)
  | conflict (c : Typing.Conflict) : Source g (.typeConflict c)
  | unknown {id : Int32} (absent : g.scripts.get? id = none) :
      Source g (.malformed id .unknownScript)
  | lift {id : Int32} {code : Script} {e : Failure} (found : g.scripts.get? id = some code)
      (failed : ((g.context id code).lift g.table).result = .error e) : Source g e

def Stems (g : Setting) (r : Except Failure Function) : Prop :=
  ∀ e, r = .error e → g.Source e.innermost

variable {g : Setting} {m m' : Moment} {p : Pending} {stack : List Pending} {s : Stores}
  {a : Option (Int32 × Except Failure Function)} {id : Int32} {r : Except Failure Function}

theorem stems_error {e : Failure} (source : g.Source e.innermost) : g.Stems (.error e) := by
  rintro _ ⟨⟩
  exact source

theorem stems_resultOf (g : Setting) (id : Int32) : g.Stems (g.resultOf id) := by
  intro e failed
  cases found : g.scripts.get? id with
  | none =>
    rw [resultOf, found] at failed
    obtain rfl := Except.error.inj failed
    exact .unknown found
  | some code =>
    rw [resultOf_eq found] at failed
    have own := (Context.lift_scoped found g.table).2.2 e failed
    rw [Failure.innermost_of_isOwn own]
    exact .lift found failed

structure Sourced (g : Setting) (m : Moment) : Prop where
  kept : ∀ id r, m.stores.results.get? id = some r → g.Stems r
  answer : ∀ a ∈ m.answer, g.Stems a.2

theorem Sourced.answering (h : g.Sourced m) (stack : List Pending) {s : Stores}
    (same : s.results = m.stores.results) {a : Option (Int32 × Except Failure Function)}
    (stems : ∀ b ∈ a, g.Stems b.2) : g.Sourced ⟨stack, s, a⟩ :=
  ⟨fun id r kept => h.kept id r (same ▸ kept), stems⟩

theorem sourced_ask (h : g.Sourced m) (id : Int32) (stack : List Pending) :
    g.Sourced (g.ask id stack m.stores) := by
  unfold ask
  split
  · rename_i r kept
    exact h.answering _ rfl (by simpa using h.kept id r kept)
  · split
    · exact h.answering _ rfl (by simpa using stems_error .limit)
    · split
      · exact h.answering (s := mentioned id m.stores) _ rfl (by simp)
      · rename_i absent
        exact h.answering _ rfl (by simpa using stems_error (.unknown (by simpa using absent)))

theorem sourced_leave (h : g.Sourced m) (stems : g.Stems r) {s : Stores}
    (same : s.results = m.stores.results) : g.Sourced (leave id r stack s) := by
  refine ⟨fun x r' kept => ?_, by simpa [leave] using stems⟩
  rcases Stores.of_get?_keep kept with before | ⟨-, rfl⟩
  · exact h.kept x r' (same ▸ before)
  · exact stems

theorem sourced_goOn {outcome : Except Failure Unit × Stores} (h : g.Sourced m)
    (same : outcome.2.results = m.stores.results)
    (fails : ∀ e, outcome.1 = .error e → g.Source e.innermost) :
    g.Sourced (goOn p stack outcome) := by
  obtain ⟨e | u, s⟩ := outcome
  · exact sourced_leave h (stems_error (fails e rfl)) same
  · exact h.answering _ same (by simp)

theorem sourced_moves (h : g.Sourced m) (moves : g.Moves m m') : g.Sourced m' := by
  cases moves with
  | idle s a => exact h
  | take p stack s callee r =>
    refine sourced_goOn h rfl fun e failed => ?_
    -- The failure of a callee stems from where that of its caller does.
    cases r with
    | ok f => simp [taken, Except.map, Except.mapError] at failed
    | error e' =>
      obtain rfl := Except.error.inj failed
      exact h.answer (callee, .error e') rfl e' rfl
  | done id stack s => exact sourced_leave h (stems_resultOf g id) rfl
  | skip id callee rest stack s => exact h.answering _ rfl (by simp)
  | enter id callee rest stack s other => exact sourced_ask h callee _
  | perform id e rest stack s quiet =>
    refine sourced_goOn h (results_perform_of_ne quiet ..) fun f failed => ?_
    obtain enters | ⟨conflict, rfl⟩ := Stores.enter_or_conflict (Prod.ext failed rfl)
    · exact absurd enters quiet
    · exact .conflict conflict

theorem sourced_next (h : g.Sourced m) (next : g.Next m m') : g.Sourced m' := by
  cases next with
  | step => exact sourced_moves h (g.moves_step m)
  | ask id idle => exact sourced_ask h id []

theorem sourced_of_moments (h : g.Moments m) : g.Sourced m := by
  induction h with
  | refl => exact ⟨by simp [Stores.start, IntMap.get?_empty], by simp⟩
  | tail _ next ih => exact sourced_next ih next

theorem source_of_interpret {e : Failure} (reached : g.Reached s)
    (failed : (g.interpret id s).1 = .error e) : g.Source e.innermost := by
  obtain ⟨a, moments⟩ := moments_reached reached
  exact (sourced_of_moments (moments.interpret id)).answer _ rfl e failed

/-- No failure of a run is a jump past the end of a script. -/
theorem Source.not_jumpPastEnd {e : Failure} (source : g.Source e) (script : Int32) (l : Label) :
    e ≠ .malformed script (.jumpPastEnd l) := by
  cases source with
  | lift found failed =>
    rintro rfl
    have own := (Context.lift_scoped found g.table).2.2 _ failed
    simp [Failure.isOwn] at own
  | _ => simp

end Setting

end ClientScript
