import ClientScript.Proofs.Interpretation.Stepwise

/-!
Results that are kept. At each moment of a run the scripts in progress are distinct and have no
result yet, and a step leaves the results of those that stay in progress open. Main statement: a
result that is kept is never replaced, is no failure for the limit on nested calls, and is what
interpreting its script gives from then on, with the stores unchanged.
-/
namespace ClientScript

def Failure.innermost : Failure → Failure
  | .calleeFailed _ _ source => source.innermost
  | e => e

theorem Failure.isDepthLimit_iff (e : Failure) :
    e.isDepthLimit ↔ ∃ limit, e.innermost = .recursionLimit limit := by
  induction e with
  | calleeFailed _ _ _ ih => exact ih
  | recursionLimit limit => simp [isDepthLimit, innermost]
  | _ => simp [isDepthLimit, innermost]

namespace Setting

variable {g : Setting} {m m' : Moment} {p : Pending} {stack : List Pending} {s s' : Stores}
  {a : Option (Int32 × Except Failure Function)} {id : Int32} {r : Except Failure Function}

structure Steady (g : Setting) (m : Moment) : Prop where
  distinct : m.active.Nodup
  shallow : m.active.length ≤ g.config.maxCallDepth
  fresh : ∀ id ∈ m.active, m.stores.results.get? id = none
  lasting : ∀ id r, m.stores.results.get? id = some r → ¬ AtLimit r

def Steadily (g : Setting) (m m' : Moment) : Prop :=
  g.Steady m' ∧ m.stores.Evolves m'.active m'.stores

theorem steadily_answer (h : g.Steady ⟨stack, s, a⟩)
    (a' : Option (Int32 × Except Failure Function)) :
    g.Steadily ⟨stack, s, a⟩ ⟨stack, s, a'⟩ :=
  ⟨⟨h.distinct, h.shallow, h.fresh, h.lasting⟩, .of_same rfl⟩

theorem steadily_ask (h : g.Steady ⟨stack, s, a⟩) (other : id ∉ stack.map Pending.script) :
    g.Steadily ⟨stack, s, a⟩ (g.ask id stack s) := by
  unfold ask
  split
  · exact steadily_answer h _
  · rename_i fresh
    split
    · exact steadily_answer h _
    · rename_i shallow
      split
      · refine ⟨⟨List.nodup_cons.2 ⟨other, h.distinct⟩, ?_, ?_, h.lasting⟩, .of_same rfl⟩
        · simp only [Moment.active, List.map_cons, List.length_cons, List.length_map]
          omega
        · intro x inside
          rcases List.mem_cons.1 inside with rfl | outer
          · exact fresh
          · exact h.fresh x outer
      · exact steadily_answer h _

theorem steadily_leave (h : g.Steady ⟨p :: stack, s, a⟩) (r : Except Failure Function)
    (same : s'.results = s.results) :
    g.Steadily ⟨p :: stack, s, a⟩ (leave p.script r stack s') := by
  obtain ⟨other, distinct⟩ := List.nodup_cons.1 h.distinct
  have fresh : s'.results.get? p.script = none := same ▸ h.fresh p.script (by simp [Moment.active])
  have evolves : s.Evolves (stack.map Pending.script) (s'.keep p.script r) :=
    (Stores.Evolves.of_same same).trans (Stores.evolves_keep fresh other)
  refine ⟨⟨distinct, ?_, ?_, ?_⟩, evolves⟩
  · exact (Nat.le_succ _).trans h.shallow
  · intro x inside
    exact (evolves.fresh inside).trans (h.fresh x (List.mem_cons_of_mem _ inside))
  · intro x r' now
    exact evolves.lasting h.lasting now

theorem steadily_goOn {rest : List Effect} {outcome : Except Failure Unit × Stores}
    (h : g.Steady ⟨p :: stack, s, a⟩) (same : outcome.2.results = s.results) :
    g.Steadily ⟨p :: stack, s, a⟩ (goOn ⟨p.script, rest⟩ stack outcome) := by
  obtain ⟨e | u, s'⟩ := outcome
  · exact steadily_leave h (.error e) same
  · exact ⟨⟨h.distinct, h.shallow, fun x inside => same ▸ h.fresh x inside,
      fun x r now => h.lasting x r (same ▸ now)⟩, .of_same same⟩

theorem steadily_moves (h : g.Steady m) (moves : g.Moves m m') : g.Steadily m m' := by
  cases moves with
  | idle s a => exact steadily_answer h a
  | take p stack s callee r => exact steadily_goOn h rfl
  | done id stack s => exact steadily_leave h (g.resultOf id) rfl
  | skip id callee rest stack s =>
    have unchanged : g.Steadily _ (goOn ⟨id, rest⟩ stack (.ok (), s)) := steadily_goOn h rfl
    exact unchanged
  | enter id callee rest stack s other =>
    have h' : g.Steady ⟨⟨id, rest⟩ :: stack, s, none⟩ :=
      ⟨h.distinct, h.shallow, h.fresh, h.lasting⟩
    exact steadily_ask h' other
  | perform id e rest stack s quiet =>
    exact steadily_goOn h (results_perform_of_ne quiet ..)

theorem steadily_next (h : g.Steady m) (next : g.Next m m') : g.Steadily m m' := by
  cases next with
  | step => exact steadily_moves h (g.moves_step m)
  | ask id idle =>
    obtain ⟨stack, s, a⟩ := m
    obtain rfl : stack = [] := idle
    exact steadily_ask h (by simp)

theorem Steady.later (h : g.Steady m) (later : g.Later m m') : g.Steady m' := by
  induction later with
  | refl => exact h
  | tail _ next ih => exact (steadily_next ih next).1

theorem kept_later (h : g.Steady m) (later : g.Later m m')
    (kept : m.stores.results.get? id = some r) : m'.stores.results.get? id = some r := by
  induction later with
  | refl => exact kept
  | tail earlier next ih => exact (steadily_next (h.later earlier) next).2.kept ih

theorem steady_of_moments (h : g.Moments m) : g.Steady m := by
  have start : g.Steady ⟨[], .start, none⟩ := by
    refine ⟨List.nodup_nil, Nat.zero_le _, by simp [Moment.active], ?_⟩
    simp [Stores.start, IntMap.get?_empty]
  exact start.later h

/-- At each moment of a run the scripts in progress are distinct, no more than the limit and without
    results, and none of them is entered again; at the end of each turn there are none. What is kept
    stays, stems from no limit on nested calls, and is given again with the stores unchanged. -/
theorem results_stable (g : Setting) :
    (∀ turns, ∃ a, g.Moments ⟨[], g.run turns, a⟩) ∧
    (∀ id s, g.Leads (g.ask id [] s)
      ⟨[], (g.interpret id s).2, some (id, (g.interpret id s).1)⟩) ∧
    ∀ m, g.Moments m →
      m.active.Nodup ∧ m.active.length ≤ g.config.maxCallDepth ∧
      (∀ id, (g.step m).active = id :: m.active → id ∉ m.active) ∧
      (∀ id ∈ m.active, m.stores.results.get? id = none) ∧
      ∀ id r, m.stores.results.get? id = some r →
        (∀ m', g.Later m m' → m'.stores.results.get? id = some r) ∧
        (∀ e limit, r = .error e → e.innermost ≠ .recursionLimit limit) ∧
        ∀ depth active, g.interpretAt depth active id m.stores = (r, m.stores) := by
  refine ⟨moments_run g, leads_interpret g, ?_⟩
  intro m moments
  have steady := steady_of_moments moments
  refine ⟨steady.distinct, steady.shallow, ?_, steady.fresh, ?_⟩
  · intro id entered
    have next := (steadily_moves steady (g.moves_step m)).1.distinct
    rw [entered] at next
    exact (List.nodup_cons.1 next).1
  · intro id r kept
    refine ⟨fun m' later => kept_later steady later kept, ?_, interpretAt_kept kept⟩
    rintro e limit rfl innermost
    exact steady.lasting id _ kept ⟨e, rfl, e.isDepthLimit_iff.2 ⟨limit, innermost⟩⟩

end Setting

namespace Sample

/-- Script 0 fails for the limit and is not kept; once its callee is kept it is interpreted. -/
theorem shallow_stable : ∃ r, (shallow.run [.one 0, .one 1]).results.get? 0 = none ∧
    (shallow.run [.one 0, .one 1, .one 0]).results.get? 0 = some r ∧
    (∀ e limit, r = .error e → e.innermost ≠ .recursionLimit limit) ∧
    shallow.interpret 0 (shallow.run [.one 0, .one 1, .one 0]) =
      (r, shallow.run [.one 0, .one 1, .one 0]) := by
  obtain ⟨passes, -, stable⟩ := Setting.results_stable shallow
  obtain ⟨a, moments⟩ := passes [.one 0, .one 1, .one 0]
  have known : ((shallow.run [.one 0, .one 1, .one 0]).results.get? 0).isSome := by
    decide +kernel
  obtain ⟨r, kept⟩ := Option.isSome_iff_exists.1 known
  obtain ⟨-, -, -, -, results⟩ := stable _ moments
  obtain ⟨-, lasting, again⟩ := results 0 r kept
  exact ⟨r, by decide +kernel, kept, lasting, again _ _⟩

end Sample

end ClientScript
