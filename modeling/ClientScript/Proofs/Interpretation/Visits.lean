import ClientScript.Proofs.Interpretation.Outcome

/-!
The visits of a run. A run visits the scripts it interprets from the top and, for each script in
progress, those that it enters. A visit keeps results only of scripts that had none and are not in
progress, and no failure for the limit on nested calls; so no result is ever lost or replaced, and
each is the answer to a visit.
-/
namespace ClientScript

namespace Stores

variable {s s₁ : Stores} {id : Int32} {enter : Int32 → Stores → Except Failure Unit × Stores}

theorem performAll_append {before : List Effect}
    (performed : s.performAll id enter before = (.ok (), s₁)) (rest : List Effect) :
    s.performAll id enter (before ++ rest) = s₁.performAll id enter rest := by
  induction before generalizing s with
  | nil =>
    obtain ⟨-, rfl⟩ := Prod.mk.inj performed
    rfl
  | cons e before ih =>
    rw [performAll] at performed
    rw [List.cons_append, performAll]
    split at performed
    · exact ih performed
    · simp at performed

/-- A relation of stores that looks at results only holds along effects if it does where a callee
    is entered. -/
theorem along_performAll {R : Stores → Stores → Prop} (trans : ∀ {a b c}, R a b → R b c → R a c)
    (quiet : ∀ {a b}, b.results = a.results → R a b) (enters : ∀ callee s, R s (enter callee s).2)
    (es : List Effect) : R s (s.performAll id enter es).2 := by
  induction es generalizing s with
  | nil => exact quiet rfl
  | cons e es ih =>
    have one : R s (s.perform id enter e).2 := by
      rcases Setting.results_perform id enter e with same | ⟨callee, same⟩
      · exact quiet same
      · exact same ▸ enters callee s
    rw [performAll]
    split <;> rename_i stepped <;> rw [stepped] at one
    · exact trans one ih
    · exact one

end Stores

def AtLimit (r : Except Failure Function) : Prop := ∃ e, r = .error e ∧ e.isDepthLimit

/-- Later on there are the same results and new ones, though none of scripts in progress and none
    for the limit on nested calls. -/
def Stores.Evolves (active : List Int32) (s s' : Stores) : Prop :=
  ∀ id, s'.results.get? id = s.results.get? id ∨
    id ∉ active ∧ s.results.get? id = none ∧ ∃ r, s'.results.get? id = some r ∧ ¬ AtLimit r

namespace Stores.Evolves

variable {active : List Int32} {s s₁ s' : Stores} {id : Int32} {r : Except Failure Function}

theorem of_same (same : s'.results = s.results) : s.Evolves active s' := by
  intro id
  rw [same]
  exact .inl rfl

theorem trans (first : s.Evolves active s₁) (later : s₁.Evolves active s') :
    s.Evolves active s' := by
  intro id
  rcases later id with same | ⟨other, none, r, kept, lasting⟩
  · rw [same]
    exact first id
  · rcases first id with same | ⟨-, -, r', kept', -⟩
    · exact .inr ⟨other, same ▸ none, r, kept, lasting⟩
    · simp [none] at kept'

theorem fewer {ids : List Int32} (h : s.Evolves active s') (sub : ids ⊆ active) :
    s.Evolves ids s' :=
  fun id => (h id).imp_right fun ⟨other, rest⟩ => ⟨fun among => other (sub among), rest⟩

theorem kept (h : s.Evolves active s') (before : s.results.get? id = some r) :
    s'.results.get? id = some r := by
  rcases h id with same | ⟨-, none, -⟩
  · rw [same, before]
  · simp [none] at before

theorem fresh (h : s.Evolves active s') (inside : id ∈ active) :
    s'.results.get? id = s.results.get? id :=
  (h id).resolve_right fun new => new.1 inside

theorem lasting (h : s.Evolves active s')
    (before : ∀ id r, s.results.get? id = some r → ¬ AtLimit r)
    (now : s'.results.get? id = some r) : ¬ AtLimit r := by
  rcases h id with same | ⟨-, -, r', kept, lasting⟩
  · exact before id r (same ▸ now)
  · obtain rfl : r = r' := Option.some.inj (now.symm.trans kept)
    exact lasting

end Stores.Evolves

namespace Stores

variable {s : Stores} {id : Int32} {r : Except Failure Function}

theorem keep_of_atLimit (limit : AtLimit r) : s.keep id r = s := by
  obtain ⟨e, rfl, deep⟩ := limit
  simp [keep, deep]

theorem keep_of_not_atLimit (lasting : ¬ AtLimit r) :
    s.keep id r = { s with results := s.results.insert id r } := by
  cases r with
  | ok f => rfl
  | error e =>
    have other : e.isDepthLimit = false := by
      by_contra deep
      exact lasting ⟨e, rfl, by simpa using deep⟩
    simp [keep, other]

theorem get?_keep (fresh : s.results.get? id = none) (r' : Except Failure Function) :
    (s.keep id r).results.get? id = some r' ↔ r' = r ∧ ¬ AtLimit r := by
  by_cases limit : AtLimit r
  · simp [keep_of_atLimit limit, fresh, limit]
  · rw [keep_of_not_atLimit limit, IntMap.get?_insert_self, Option.some.injEq]
    simp [limit, eq_comm]

theorem get?_keep_of_ne {x : Int32} (other : x ≠ id) :
    (s.keep id r).results.get? x = s.results.get? x := by
  by_cases limit : AtLimit r
  · rw [keep_of_atLimit limit]
  · rw [keep_of_not_atLimit limit, IntMap.get?_insert, if_neg other]

theorem of_get?_keep {x : Int32} {r' : Except Failure Function}
    (kept : (s.keep id r).results.get? x = some r') :
    s.results.get? x = some r' ∨ x = id ∧ r' = r := by
  by_cases limit : AtLimit r
  · rw [keep_of_atLimit limit] at kept
    exact .inl kept
  · rw [keep_of_not_atLimit limit, IntMap.get?_insert] at kept
    split at kept
    · rename_i same
      exact .inr ⟨same, (Option.some.inj kept).symm⟩
    · exact .inl kept

theorem evolves_keep {active : List Int32} (fresh : s.results.get? id = none)
    (other : id ∉ active) : s.Evolves active (s.keep id r) := by
  intro x
  by_cases same : x = id
  · subst same
    by_cases limit : AtLimit r
    · exact .inl (by rw [keep_of_atLimit limit])
    · exact .inr ⟨other, fresh, r, (get?_keep fresh r).2 ⟨rfl, limit⟩, limit⟩
  · exact .inl (get?_keep_of_ne same)

end Stores

namespace Setting

variable {g : Setting} {depth : Nat} {active : List Int32} {id callee : Int32} {s s' : Stores}
  {code : Script} {r : Except Failure Function}

def entering (g : Setting) (depth : Nat) (active : List Int32) (id : Int32) :
    Int32 → Stores → Except Failure Unit × Stores :=
  enterWith (g.interpretAt depth) (id :: active) id

theorem interpretAt_kept (kept : s.results.get? id = some r) (depth : Nat) (active : List Int32) :
    g.interpretAt depth active id s = (r, s) := by
  cases depth <;> simp [interpretAt, kept]

theorem interpretAt_zero (fresh : s.results.get? id = none) (active : List Int32) :
    g.interpretAt 0 active id s = (.error (.recursionLimit g.config.maxCallDepth), s) := by
  simp [interpretAt, fresh]

theorem interpretAt_unknown (fresh : s.results.get? id = none) (unknown : g.scripts.get? id = none)
    (depth : Nat) (active : List Int32) :
    (g.interpretAt depth active id s).2 = s := by
  cases depth <;> simp [interpretAt, fresh, unknown]

def mentioned (id : Int32) (s : Stores) : Stores := { s with calls := s.calls.mention id }

/-- A script without a result is interpreted: if all its effects are performed the lift gives the
    result, and if one fails that is the result. -/
theorem interpretAt_succ (fresh : s.results.get? id = none)
    (found : g.scripts.get? id = some code) (depth : Nat) (active : List Int32) :
    ∃ outcome s₁, (mentioned id s).performAll id (g.entering depth active id) (g.effectsOf id) =
        (outcome, s₁) ∧
      g.interpretAt (depth + 1) active id s =
        (outcome.bind fun _ => ((g.context id code).lift g.table).result,
          s₁.keep id (outcome.bind fun _ => ((g.context id code).lift g.table).result)) := by
  rw [effectsOf_eq found]
  refine ⟨_, _, rfl, ?_⟩
  simp only [interpretAt, fresh, found, runWith, mentioned, entering]
  split <;> rename_i performed <;> rw [performed] <;> rfl

theorem entering_eq (g : Setting) (depth : Nat) (active : List Int32) (id callee : Int32)
    (s : Stores) : callee ∈ id :: active ∧ g.entering depth active id callee s = (.ok (), s) ∨
      callee ∉ id :: active ∧
        (g.entering depth active id callee s).2 = (g.interpretAt depth (id :: active) callee s).2 ∧
        ((∃ f, (g.interpretAt depth (id :: active) callee s).1 = .ok f ∧
            (g.entering depth active id callee s).1 = .ok ()) ∨
          ∃ e, (g.interpretAt depth (id :: active) callee s).1 = .error e ∧
            (g.entering depth active id callee s).1 = .error (.calleeFailed id callee e)) := by
  unfold entering enterWith
  split
  · rename_i inside
    exact .inl ⟨inside, rfl⟩
  · rename_i other
    refine .inr ⟨other, ?_⟩
    split <;> rename_i given <;> rw [given]
    · exact ⟨rfl, .inl ⟨_, rfl, rfl⟩⟩
    · exact ⟨rfl, .inr ⟨_, rfl, rfl⟩⟩

theorem evolves_performAll {depth : Nat} {active : List Int32} {id : Int32}
    (deeper : ∀ callee (s : Stores), callee ∉ id :: active →
      s.Evolves (id :: active) (g.interpretAt depth (id :: active) callee s).2)
    (s : Stores) (es : List Effect) :
    s.Evolves (id :: active) (s.performAll id (g.entering depth active id) es).2 := by
  apply Stores.along_performAll (R := Stores.Evolves (id :: active))
  · exact fun first later => first.trans later
  · exact Stores.Evolves.of_same
  · intro callee s
    rcases g.entering_eq depth active id callee s with ⟨-, same⟩ | ⟨new, same, -⟩
    · rw [same]
      exact .of_same rfl
    · rw [same]
      exact deeper callee s new

theorem evolves_interpretAt (other : id ∉ active) :
    s.Evolves active (g.interpretAt depth active id s).2 := by
  induction depth generalizing active id s with
  | zero =>
    cases kept : s.results.get? id with
    | some r =>
      rw [interpretAt_kept kept]
      exact .of_same rfl
    | none =>
      rw [interpretAt_zero kept]
      exact .of_same rfl
  | succ depth ih =>
    cases kept : s.results.get? id with
    | some r =>
      rw [interpretAt_kept kept]
      exact .of_same rfl
    | none =>
      cases found : g.scripts.get? id with
      | none =>
        rw [interpretAt_unknown kept found]
        exact .of_same rfl
      | some code =>
        obtain ⟨outcome, s₁, performed, run⟩ := interpretAt_succ kept found depth active
        have inside : (mentioned id s).Evolves (id :: active)
            ((mentioned id s).performAll id (g.entering depth active id) (g.effectsOf id)).2 :=
          evolves_performAll (fun _ _ new => ih new) _ _
        rw [performed] at inside
        have still : s₁.results.get? id = none :=
          (inside.fresh (by simp)).trans kept
        rw [run]
        exact (inside.fewer (List.subset_cons_self ..)).trans (Stores.evolves_keep still other)

theorem evolves_performed {es : List Effect} {outcome : Except Failure Unit}
    (performed : s.performAll id (g.entering depth active id) es = (outcome, s')) :
    s.Evolves (id :: active) s' := by
  have evolves : s.Evolves (id :: active)
      (s.performAll id (g.entering depth active id) es).2 :=
    evolves_performAll (fun _ _ new => evolves_interpretAt new) s es
  rwa [performed] at evolves

theorem interpretAt_runs (fresh : s.results.get? id = none) (found : g.scripts.get? id = some code)
    (depth : Nat) (active : List Int32) : ∃ outcome s₁,
      (mentioned id s).performAll id (g.entering depth active id) (g.effectsOf id) =
        (outcome, s₁) ∧
      g.interpretAt (depth + 1) active id s =
        (outcome.bind fun _ => ((g.context id code).lift g.table).result,
          s₁.keep id (outcome.bind fun _ => ((g.context id code).lift g.table).result)) ∧
      s₁.results.get? id = none := by
  obtain ⟨outcome, s₁, performed, run⟩ := interpretAt_succ fresh found depth active
  exact ⟨outcome, s₁, performed, run, ((evolves_performed performed).fresh (by simp)).trans fresh⟩

/-- What a script is answered is kept, unless it is a failure for the limit on nested calls; and
    nothing else is kept for it. -/
theorem kept_iff_answer (known : (g.scripts.get? id).isSome)
    (lasting : ∀ r, s.results.get? id = some r → ¬ AtLimit r) :
    (g.interpretAt depth active id s).2.results.get? id = some r ↔
      (g.interpretAt depth active id s).1 = r ∧ ¬ AtLimit r := by
  cases kept : s.results.get? id with
  | some r' =>
    rw [interpretAt_kept kept, kept, Option.some.injEq]
    exact ⟨fun same => ⟨same, same ▸ lasting r' kept⟩, And.left⟩
  | none =>
    obtain ⟨code, found⟩ := Option.isSome_iff_exists.1 known
    cases depth with
    | zero =>
      rw [interpretAt_zero kept, kept]
      refine ⟨by simp, ?_⟩
      rintro ⟨rfl, lasting⟩
      exact absurd ⟨_, rfl, rfl⟩ lasting
    | succ depth =>
      obtain ⟨outcome, s₁, -, run, still⟩ := interpretAt_runs kept found depth active
      rw [run]
      refine (Stores.get?_keep still r).trans ?_
      constructor
      · rintro ⟨rfl, lasting⟩
        exact ⟨rfl, lasting⟩
      · rintro ⟨rfl, lasting⟩
        exact ⟨rfl, lasting⟩

variable {ids before after : List Int32}

theorem interpretEach_append (before after : List Int32) (s : Stores) :
    (g.interpretEach (before ++ after) s).2 =
      (g.interpretEach after (g.interpretEach before s).2).2 := by
  induction before generalizing s with
  | nil => rfl
  | cons id before ih => exact ih _

theorem evolves_interpretEach (ids : List Int32) (s : Stores) :
    s.Evolves [] (g.interpretEach ids s).2 := by
  induction ids generalizing s with
  | nil => exact .of_same rfl
  | cons id ids ih => exact (evolves_interpretAt (by simp)).trans (ih _)

def Enters (g : Setting) (caller callee : Int32) : Prop := .enter callee ∈ g.effectsOf caller

/-- A script that is asked for: the scripts in progress with the innermost first, how many more may
    be in progress, and the stores. -/
structure Visit where
  depth : Nat
  active : List Int32
  script : Int32
  stores : Stores

def Visit.run (g : Setting) (v : Visit) : Except Failure Function × Stores :=
  g.interpretAt v.depth v.active v.script v.stores

/-- The visits of a run that interprets scripts one after another: those from the top, and for a
    script that has no result yet those to the callees which its effects, up to there performed,
    enter. -/
inductive Visits (g : Setting) (ids : List Int32) : Visit → Prop where
  | turn {before after : List Int32} {id : Int32} (split : ids = before ++ id :: after) :
      Visits g ids ⟨g.config.maxCallDepth, [], id, (g.interpretEach before .start).2⟩
  | call {depth : Nat} {active : List Int32} {id callee : Int32} {s s' : Stores} {code : Script}
      {before after : List Effect} (visit : Visits g ids ⟨depth + 1, active, id, s⟩)
      (fresh : s.results.get? id = none) (found : g.scripts.get? id = some code)
      (split : g.effectsOf id = before ++ .enter callee :: after)
      (performed :
        (mentioned id s).performAll id (g.entering depth active id) before = (.ok (), s'))
      (other : callee ∉ id :: active) : Visits g ids ⟨depth, id :: active, callee, s'⟩

variable {v : Visit}

theorem Visits.enters (h : g.Visits ids v) :
    ∀ caller ∈ v.active, Relation.TransGen g.Enters caller v.script := by
  induction h with
  | turn => simp
  | @call _ _ id callee _ _ _ _ _ _ _ _ split _ _ ih =>
    have one : g.Enters id callee := by
      rw [Enters, split]
      simp
    intro caller member
    rcases List.mem_cons.1 member with rfl | outer
    · exact .single one
    · exact (ih caller outer).tail one

theorem Visits.lasting (h : g.Visits ids v) :
    ∀ id r, v.stores.results.get? id = some r → ¬ AtLimit r := by
  induction h with
  | @turn before _ _ _ =>
    intro id r
    refine (evolves_interpretEach before .start).lasting ?_
    simp [Stores.start, IntMap.get?_empty]
  | call _ _ _ _ performed _ ih =>
    intro x r
    exact (evolves_performed performed).lasting ih

theorem Visits.kept (h : g.Visits ids v) {id : Int32} {r : Except Failure Function}
    (now : (v.run g).2.results.get? id = some r) :
    (g.interpretEach ids .start).2.results.get? id = some r := by
  induction h with
  | @turn before after x split =>
    rw [split, interpretEach_append]
    exact (evolves_interpretEach after _).kept now
  | @call depth active x callee s s' code before after visit fresh found split performed other ih =>
    apply ih
    -- The callee's results are kept by the rest of the caller's effects, and by its own result.
    obtain ⟨outcome, s₁, all, run, still⟩ := interpretAt_runs fresh found depth active
    rw [split, Stores.performAll_append performed] at all
    have entered : (s'.perform x (g.entering depth active x) (.enter callee)).2 =
        (g.interpretAt depth (x :: active) callee s').2 := by
      rcases g.entering_eq depth active x callee s' with ⟨inside, -⟩ | ⟨-, same, -⟩
      · exact absurd inside other
      · exact same
    have there : (s'.perform x (g.entering depth active x) (.enter callee)).2.results.get? id =
        some r := by
      rw [entered]
      exact now
    have before_keep : s₁.results.get? id = some r := by
      rw [Stores.performAll] at all
      split at all <;> rename_i stepped <;> rw [stepped] at there
      · exact (evolves_performed all).kept there
      · obtain ⟨-, rfl⟩ := Prod.mk.inj all
        exact there
    rw [Visit.run, run]
    exact (Stores.evolves_keep still List.not_mem_nil).kept before_keep

theorem Visits.answer_kept (h : g.Visits ids v) (known : (g.scripts.get? v.script).isSome)
    {r : Except Failure Function} (answer : (v.run g).1 = r) (other : ¬ AtLimit r) :
    (g.interpretEach ids .start).2.results.get? v.script = some r :=
  h.kept ((kept_iff_answer known (h.lasting _)).2 ⟨answer, other⟩)

def Answered (g : Setting) (ids : List Int32) (script : Int32) (r : Except Failure Function) :
    Prop :=
  ∃ v, g.Visits ids v ∧ v.script = script ∧ v.stores.results.get? script = none ∧ (v.run g).1 = r

section

variable {x : Int32}

theorem answered_performAll
    (deeper : ∀ callee s, g.Visits ids ⟨depth, id :: active, callee, s⟩ →
      (g.interpretAt depth (id :: active) callee s).2.results.get? x = some r →
        s.results.get? x = some r ∨ g.Answered ids x r)
    (visit : g.Visits ids ⟨depth + 1, active, id, s⟩) (fresh : s.results.get? id = none)
    (found : g.scripts.get? id = some code) (rest : List Effect) {done : List Effect}
    (split : g.effectsOf id = done ++ rest)
    (performed : (mentioned id s).performAll id (g.entering depth active id) done = (.ok (), s'))
    (now : (s'.performAll id (g.entering depth active id) rest).2.results.get? x = some r) :
    s'.results.get? x = some r ∨ g.Answered ids x r := by
  induction rest generalizing done s' with
  | nil => exact .inl now
  | cons e rest ih =>
    -- What one effect adds is the result of a callee that is entered.
    have one : (s'.perform id (g.entering depth active id) e).2.results.get? x = some r →
        s'.results.get? x = some r ∨ g.Answered ids x r := by
      intro there
      rcases Classical.em (∃ callee, e = .enter callee) with ⟨callee, rfl⟩ | quiet
      · change (g.entering depth active id callee s').2.results.get? x = some r at there
        rcases g.entering_eq depth active id callee s' with ⟨-, same⟩ | ⟨other, same, -⟩
        · exact .inl (by rwa [same] at there)
        · rw [same] at there
          exact deeper callee s' (.call visit fresh found split performed other) there
      · rw [results_perform_of_ne quiet] at there
        exact .inl there
    rw [Stores.performAll] at now
    split at now <;> rename_i stepped <;> rw [stepped] at one
    · rename_i s₂
      have further : (mentioned id s).performAll id (g.entering depth active id) (done ++ [e]) =
          (.ok (), s₂) := by
        rw [Stores.performAll_append performed, Stores.performAll, stepped]
        rfl
      rcases ih (by rw [split]; simp) further now with before | answered
      · exact one before
      · exact .inr answered
    · exact one now

theorem answered_of_visit (visit : g.Visits ids ⟨depth, active, id, s⟩)
    (now : (g.interpretAt depth active id s).2.results.get? x = some r) :
    s.results.get? x = some r ∨ g.Answered ids x r := by
  induction depth generalizing active id s with
  | zero =>
    cases kept : s.results.get? id with
    | some r' => exact .inl (by rwa [interpretAt_kept kept] at now)
    | none => exact .inl (by rwa [interpretAt_zero kept] at now)
  | succ depth ih =>
    cases kept : s.results.get? id with
    | some r' => exact .inl (by rwa [interpretAt_kept kept] at now)
    | none =>
      cases found : g.scripts.get? id with
      | none => exact .inl (by rwa [interpretAt_unknown kept found] at now)
      | some code =>
        obtain ⟨outcome, s₁, performed, run, still⟩ := interpretAt_runs kept found depth active
        by_cases same : x = id
        · -- Its own result is the answer.
          subst same
          rw [run] at now
          obtain ⟨answer, -⟩ := (Stores.get?_keep still r).1 now
          exact .inr ⟨_, visit, rfl, kept, by rw [Visit.run, run, answer]⟩
        · rw [run, Stores.get?_keep_of_ne same] at now
          have start : (mentioned id s).performAll id (g.entering depth active id) [] =
              (.ok (), mentioned id s) := rfl
          change (mentioned id s).results.get? x = some r ∨ g.Answered ids x r
          refine answered_performAll (fun callee s inner there => ih inner there) visit kept found
            (g.effectsOf id) rfl start ?_
          rw [performed]
          exact now

theorem answered_interpretEach (after : List Int32) {before : List Int32}
    (split : ids = before ++ after)
    (now : (g.interpretEach after (g.interpretEach before .start).2).2.results.get? x = some r) :
    (g.interpretEach before .start).2.results.get? x = some r ∨ g.Answered ids x r := by
  induction after generalizing before with
  | nil => exact .inl now
  | cons id after ih =>
    have next : (g.interpret id (g.interpretEach before .start).2).2 =
        (g.interpretEach (before ++ [id]) .start).2 := by
      rw [interpretEach_append]
      rfl
    have further : ids = (before ++ [id]) ++ after := by simp [split]
    rcases ih further (by rw [← next]; exact now) with old | answered
    · rw [← next] at old
      exact answered_of_visit (.turn split) old
    · exact .inr answered

theorem answered_of_kept (kept : (g.interpretEach ids .start).2.results.get? x = some r) :
    g.Answered ids x r ∧ ¬ AtLimit r := by
  have empty : ∀ y, Stores.start.results.get? y = none := IntMap.get?_empty
  constructor
  · refine (answered_interpretEach ids (List.nil_append ids).symm kept).resolve_left ?_
    simp [interpretEach, empty]
  · exact (evolves_interpretEach ids .start).lasting (by simp [empty]) kept

end

end Setting

end ClientScript
