import ClientScript.Proofs.Interpretation.Boundaries
import ClientScript.Proofs.Interpretation.Depth

/-!
Callers of failed scripts. A script that enters a callee fails with it, unless the callee is in
progress: then what it declares is enough, and the caller may be kept as a function before the
callee fails. Main statement: in no other way a function comes to call a script that failed.
-/
namespace ClientScript

def Function.Calls (f : Function) (callee : Int32) : Prop :=
  ∃ i ∈ f.code.instructions, ∃ opcode arguments results typings,
    .call opcode callee arguments results typings ∈ i.parts

namespace Stores

variable {s s₁ : Stores} {id : Int32} {enter : Int32 → Stores → Except Failure Unit × Stores}

theorem performed_each {before after : List Effect} {effect : Effect}
    (performed : s.performAll id enter (before ++ effect :: after) = (.ok (), s₁)) :
    ∃ s' s'', s.performAll id enter before = (.ok (), s') ∧
      s'.perform id enter effect = (.ok (), s'') := by
  induction before generalizing s with
  | nil =>
    rw [List.nil_append, performAll] at performed
    split at performed <;> rename_i stepped
    · exact ⟨s, _, rfl, stepped⟩
    · simp at performed
  | cons e before ih =>
    rw [List.cons_append, performAll] at performed
    split at performed <;> rename_i stepped
    · obtain ⟨s', s'', first, one⟩ := ih performed
      refine ⟨s', s'', ?_, one⟩
      rw [performAll, stepped]
      exact first
    · simp at performed

end Stores

namespace Setting

variable {g : Setting} {ids : List Int32} {id callee : Int32} {f : Function}

theorem enters_of_calls (lifts : g.Lifts id f) (calls : f.Calls callee) : g.Enters id callee := by
  obtain ⟨code, found, lifted⟩ := lifts
  obtain ⟨insns, traced⟩ := Context.traced lifted
  obtain ⟨i, among, opcode, arguments, results, typings, part⟩ := calls
  obtain ⟨e, member, rfl⟩ := List.mem_map.1 among
  obtain ⟨_, _, _, _, -, -, asks, sub⟩ :=
    step_of_kept traced (effectsOf_eq found) member part rfl
  exact sub asks.enters

/-- A script was interpreted to a function while a script that the function calls was in
    progress. -/
def CalledInProgress (g : Setting) (ids : List Int32) (id callee : Int32) : Prop :=
  ∃ v f, g.Visits ids v ∧ v.script = id ∧ v.stores.results.get? id = none ∧
    (v.run g).1 = .ok f ∧ f.Calls callee ∧ callee ∈ v.active

def scriptsOf (g : Setting) : List Turn → List Int32
  | [] => []
  | .one script :: turns => script :: g.scriptsOf turns
  | .all :: turns => g.scripts.keys ++ g.scriptsOf turns

theorem run_eq (g : Setting) (turns : List Turn) :
    g.run turns = (g.interpretEach (g.scriptsOf turns) .start).2 := by
  unfold run
  generalize Stores.start = s
  induction turns generalizing s with
  | nil => rfl
  | cons turn turns ih =>
    rw [List.foldl_cons, ih]
    cases turn with
    | one script => rfl
    | all =>
      rw [scriptsOf, interpretEach_append, ← interpretAll_eq]
      rfl

theorem known_of_answer {depth : Nat} {active : List Int32} {s : Stores}
    (fresh : s.results.get? id = none) (answer : (g.interpretAt depth active id s).1 = .ok f) :
    id ∈ g.scripts.keys := by
  rw [IntMap.mem_keys_iff]
  by_contra unknown
  rw [Option.not_isSome_iff_eq_none] at unknown
  cases depth <;> simp [interpretAt, fresh, unknown] at answer

theorem callee_of_visit {depth : Nat} {active : List Int32} {s : Stores}
    (visit : g.Visits ids ⟨depth, active, id, s⟩) (fresh : s.results.get? id = none)
    (answer : (g.interpretAt depth active id s).1 = .ok f) (calls : f.Calls callee) :
    callee ∈ id :: active ∨
      ∃ f', (g.interpretEach ids .start).2.results.get? callee = some (.ok f') := by
  cases depth with
  | zero => simp [interpretAt_zero fresh] at answer
  | succ depth =>
    obtain ⟨code, found⟩ := Option.isSome_iff_exists.1
      (IntMap.mem_keys_iff.1 (known_of_answer fresh answer))
    obtain ⟨outcome, s₁, performed, run, -⟩ := interpretAt_runs fresh found depth active
    rw [run] at answer
    -- The callee was entered, and that did not fail.
    cases outcome with
    | error e => simp [Except.bind] at answer
    | ok u =>
      have enters := enters_of_calls ⟨code, found, answer⟩ calls
      obtain ⟨before, after, split⟩ := List.append_of_mem enters
      rw [split] at performed
      obtain ⟨s', s'', first, entered⟩ := Stores.performed_each performed
      change g.entering depth active id callee s' = (.ok (), s'') at entered
      rcases g.entering_eq depth active id callee s' with ⟨inside, -⟩ | ⟨other, -, came⟩
      · exact .inl inside
      · rw [entered] at came
        rcases came with ⟨f', given, -⟩ | ⟨e, -, same⟩
        · have inner : g.Visits ids ⟨depth, id :: active, callee, s'⟩ :=
            .call visit fresh found split first other
          exact .inr ⟨f', inner.answer_kept (IntMap.mem_keys_iff.1 (known_of_enters enters)) given
            (by simp [AtLimit])⟩
        · simp at same

/-- A function that is kept and calls a script that failed was interpreted while that script was in
    progress. -/
theorem inProgress_of_failed
    (kept : (g.interpretEach ids .start).2.results.get? id = some (.ok f)) (calls : f.Calls callee)
    {e : Failure} (failed : (g.interpretEach ids .start).2.results.get? callee = some (.error e)) :
    g.CalledInProgress ids id callee := by
  obtain ⟨⟨v, visit, rfl, fresh, answer⟩, -⟩ := answered_of_kept kept
  refine ⟨v, f, visit, rfl, fresh, answer, calls, ?_⟩
  rcases callee_of_visit visit fresh answer calls with inside | ⟨f', kept'⟩
  · refine (List.mem_cons.1 inside).resolve_left ?_
    rintro rfl
    simp [kept] at failed
  · simp [failed] at kept'

/-- The functions of a run call no script that failed, if and only if no script that failed was in
    progress when one that calls it was interpreted to a function. A function that calls a script
    that failed is called by it in turn, through other scripts or not. -/
theorem calls_failed_iff (g : Setting) (turns : List Turn) :
    ((∀ id f callee, (FunctionSet.ofStores (g.run turns)).functions.get? id = some f →
        f.Calls callee → callee ∉ (FunctionSet.ofStores (g.run turns)).failures.keys) ↔
      ∀ id callee, g.CalledInProgress (g.scriptsOf turns) id callee →
        callee ∉ (FunctionSet.ofStores (g.run turns)).failures.keys) ∧
    ∀ id f callee, (FunctionSet.ofStores (g.run turns)).functions.get? id = some f →
      f.Calls callee → callee ∈ (FunctionSet.ofStores (g.run turns)).failures.keys →
        Relation.TransGen g.Enters callee id := by
  simp only [FunctionSet.functions_ofStores, FunctionSet.mem_failures, run_eq]
  refine ⟨⟨?_, ?_⟩, ?_⟩
  · rintro clean id callee ⟨v, f, visit, rfl, fresh, answer, calls, -⟩
    have known := IntMap.mem_keys_iff.1 (known_of_answer fresh answer)
    exact clean v.script f callee (visit.answer_kept known answer (by simp [AtLimit])) calls
  · rintro clean id f callee kept calls ⟨e, failed⟩
    exact clean id callee (inProgress_of_failed kept calls failed) ⟨e, failed⟩
  · rintro id f callee kept calls ⟨e, failed⟩
    obtain ⟨v, _, visit, rfl, -, -, -, inside⟩ := inProgress_of_failed kept calls failed
    exact visit.enters callee inside

end Setting

namespace Sample

/-- Scripts 0 and 1 call each other, and script 0 then pops a number where there is none. -/
def conceding : Setting :=
  .of ((IntMap.insert .empty 0 (.ofLines [.op .gosubWithParams (.int 1),
      .op .popIntDiscard (.int 0), .op .ret (.int 0)])).insert 1
    (.ofLines [.op .gosubWithParams (.int 0), .op .ret (.int 0)])) .none .default

def concedingCalls (id callee : Int32) : Bool :=
  ((FunctionSet.ofStores (conceding.run [.all])).functions.get? id).any fun f =>
    f.code.toList[0]?.any fun e => match e.2 with
      | .assign [] x => x == .call .gosubWithParams callee [] [] []
      | _ => false

theorem calls_of_concedingCalls {id callee : Int32} (first : concedingCalls id callee) : ∃ f,
    (FunctionSet.ofStores (conceding.run [.all])).functions.get? id = some f ∧ f.Calls callee := by
  obtain ⟨f, e, kept, member, same⟩ := FunctionSet.exists_of_test first
  refine ⟨f, kept, e.2, List.mem_map_of_mem member, .gosubWithParams, [], [], [], ?_⟩
  split at same
  · rename_i x is
    rw [is, beq_iff_eq.1 same]
    exact List.mem_cons_self
  · simp at same

/-- Script 1 was interpreted while script 0 was in progress, and calls it though it failed. -/
theorem conceding_calls_failed : ∃ f,
    (FunctionSet.ofStores (conceding.run [.all])).functions.get? 1 = some f ∧ f.Calls 0 ∧
      0 ∈ (FunctionSet.ofStores (conceding.run [.all])).failures.keys := by
  obtain ⟨f, kept, calls⟩ := calls_of_concedingCalls (show concedingCalls 1 0 by decide +kernel)
  exact ⟨f, kept, calls, by decide +kernel⟩

theorem conceding_calls_back : concedingCalls 1 0 ∧
    0 ∈ (FunctionSet.ofStores (conceding.run [.all])).failures.keys ∧
    Relation.TransGen conceding.Enters 0 1 := by
  have first : concedingCalls 1 0 := by decide +kernel
  have failed : 0 ∈ (FunctionSet.ofStores (conceding.run [.all])).failures.keys := by
    decide +kernel
  obtain ⟨f, kept, calls⟩ := calls_of_concedingCalls first
  exact ⟨first, failed, (Setting.calls_failed_iff conceding [.all]).2 1 f 0 kept calls failed⟩

end Sample

end ClientScript
