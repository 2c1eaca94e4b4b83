import ClientScript.Interpreter

/-!
Functions of a run. However scripts are interpreted one after the other, a function that is given
or kept is what its script lifts to.
-/
namespace ClientScript

namespace Setting

inductive Reached (g : Setting) : Stores → Prop where
  | start : Reached g .start
  | interpret {s : Stores} (script : Int32) (before : Reached g s) :
      Reached g (g.interpret script s).2

def Lifts (g : Setting) (script : Int32) (f : Function) : Prop :=
  ∃ code, g.scripts.get? script = some code ∧ ((g.context script code).lift g.table).result = .ok f

def Faithful (g : Setting) (s : Stores) : Prop :=
  ∀ script f, s.results.get? script = some (.ok f) → g.Lifts script f

variable {g : Setting} {s : Stores}

theorem faithful_keep {script : Int32} {r : Except Failure Function} (h : g.Faithful s)
    (lifts : ∀ f, r = .ok f → g.Lifts script f) : g.Faithful (s.keep script r) := by
  have insert : g.Faithful { s with results := s.results.insert script r } := by
    intro other f kept
    rw [IntMap.get?_insert] at kept
    split at kept
    · rename_i same
      exact same ▸ lifts f (Option.some.inj kept)
    · exact h other f kept
  unfold Stores.keep
  split
  · split
    · exact h
    · exact insert
  · exact insert

theorem results_perform_of_ne {e : Effect} (other : ¬ ∃ callee, e = .enter callee) (script : Int32)
    (enter : Int32 → Stores → Except Failure Unit × Stores) (s : Stores) :
    (s.perform script enter e).2.results = s.results := by
  cases e with
  | enter callee => exact absurd ⟨callee, rfl⟩ other
  | record | declare | results => rfl
  | unify a b =>
    simp only [Stores.perform, Stores.unify]
    split <;> rfl
  | freeze t pin =>
    simp only [Stores.perform, Stores.freeze]
    split <;> rfl

theorem results_perform (script : Int32) (enter : Int32 → Stores → Except Failure Unit × Stores)
    (e : Effect) : (s.perform script enter e).2.results = s.results ∨
      ∃ callee, (s.perform script enter e).2 = (enter callee s).2 := by
  rcases Classical.em (∃ callee, e = .enter callee) with ⟨callee, rfl⟩ | quiet
  · exact .inr ⟨callee, rfl⟩
  · exact .inl (results_perform_of_ne quiet script enter s)

theorem faithful_performAll (script : Int32)
    {enter : Int32 → Stores → Except Failure Unit × Stores}
    (enters : ∀ callee s, g.Faithful s → g.Faithful (enter callee s).2) (es : List Effect)
    (h : g.Faithful s) : g.Faithful (s.performAll script enter es).2 := by
  induction es generalizing s with
  | nil => exact h
  | cons e es ih =>
    have next : g.Faithful (s.perform script enter e).2 := by
      rcases results_perform script enter e with same | ⟨callee, same⟩
      · intro other f kept
        exact h other f (same ▸ kept)
      · exact same ▸ enters callee s h
    unfold Stores.performAll
    split <;> rename_i stepped <;> rw [stepped] at next
    · exact ih next
    · exact next

theorem faithful_interpretAt (depth : Nat) (active : List Int32) (script : Int32)
    (h : g.Faithful s) : g.Faithful (g.interpretAt depth active script s).2 ∧
      ∀ f, (g.interpretAt depth active script s).1 = .ok f → g.Lifts script f := by
  induction depth generalizing active script s with
  | zero =>
    unfold interpretAt
    split
    · rename_i r kept
      exact ⟨h, fun f given => h script f (given ▸ kept)⟩
    · exact ⟨h, by simp⟩
  | succ depth ih =>
    unfold interpretAt
    split
    · rename_i r kept
      exact ⟨h, fun f given => h script f (given ▸ kept)⟩
    split
    · exact ⟨h, by simp⟩
    rename_i code found
    have lifts : ∀ f, ((g.context script code).lift g.table).result = .ok f → g.Lifts script f :=
      fun f result => ⟨code, found, result⟩
    have enters : ∀ callee s, g.Faithful s →
        g.Faithful (enterWith (g.interpretAt depth) (script :: active) script callee s).2 := by
      intro callee s faithful
      unfold enterWith
      split
      · exact faithful
      · have called := (ih (script :: active) callee faithful).1
        split <;> rename_i result <;> rw [result] at called <;> exact called
    have performed := faithful_performAll script enters
      ((g.context script code).lift g.table).effects
      (s := { s with calls := s.calls.mention script }) h
    unfold runWith
    simp only
    split <;> rename_i result <;> rw [result] at performed
    · exact ⟨faithful_keep performed lifts, lifts⟩
    · exact ⟨faithful_keep performed (by simp), by simp⟩

theorem Reached.faithful (h : g.Reached s) : g.Faithful s := by
  induction h with
  | start =>
    intro script f kept
    simp [Stores.start, IntMap.get?_empty] at kept
  | interpret script before ih => exact (faithful_interpretAt _ _ _ ih).1

theorem lifts_of_interpret {script : Int32} {f : Function} (reached : g.Reached s)
    (given : (g.interpret script s).1 = .ok f) : g.Lifts script f :=
  (faithful_interpretAt _ _ _ reached.faithful).2 f given

theorem exists_of_interpret {α : Type} {script : Int32} {p : Function → α} {a : α}
    (shown : (g.interpret script s).1.toOption.map p = some a) :
    ∃ f, (g.interpret script s).1 = .ok f ∧ p f = a := by
  cases result : (g.interpret script s).1 with
  | error e => simp [result, Except.toOption] at shown
  | ok f =>
    rw [result] at shown
    exact ⟨f, rfl, Option.some.inj shown⟩

theorem interpret_eq {script : Int32} {f : Function}
    (shown : (g.interpret script s).1.toOption = some f) : (g.interpret script s).1 = .ok f := by
  obtain ⟨f', given, rfl⟩ := exists_of_interpret ((Option.map_id_apply ..).trans shown)
  exact given

end Setting

end ClientScript
