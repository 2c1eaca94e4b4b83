import ClientScript.Proofs.Interpretation.Visits

/-!
The limit on nested calls. A failure for the limit is not kept, so that a script which only comes
to such failures has no result in the end. Then it heads a chain of calls that is longer than the
limit. Main statement: all other scripts have one result, a function or a failure.
-/
namespace ClientScript

namespace Stores

variable {s s₁ : Stores} {id : Int32} {enter : Int32 → Stores → Except Failure Unit × Stores}

theorem failed_performAll {es : List Effect} {e : Failure}
    (failed : s.performAll id enter es = (.error e, s₁)) : ∃ before effect after s',
      es = before ++ effect :: after ∧ s.performAll id enter before = (.ok (), s') ∧
        s'.perform id enter effect = (.error e, s₁) := by
  induction es generalizing s with
  | nil => simp [performAll] at failed
  | cons effect es ih =>
    rw [performAll] at failed
    split at failed <;> rename_i stepped
    · obtain ⟨before, effect', after, s', split, performed, last⟩ := ih failed
      refine ⟨effect :: before, effect', after, s', by rw [split]; rfl, ?_, last⟩
      rw [performAll, stepped]
      exact performed
    · obtain ⟨same, rfl⟩ := Prod.mk.inj failed
      obtain rfl := Except.error.inj same
      exact ⟨[], effect, es, s, rfl, rfl, stepped⟩

theorem enter_or_conflict {effect : Effect} {e : Failure}
    (failed : s.perform id enter effect = (.error e, s₁)) :
    (∃ callee, effect = .enter callee) ∨ ∃ conflict, e = .typeConflict conflict := by
  have typing : ∀ r : Except Typing.Conflict Unit × Typings,
      s.withTypings r = (.error e, s₁) → ∃ conflict, e = .typeConflict conflict := by
    rintro ⟨outcome, typings⟩ clash
    cases outcome with
    | error conflict => exact ⟨conflict, (Except.error.inj (congrArg Prod.fst clash)).symm⟩
    | ok u => simp [withTypings, Except.mapError] at clash
  cases effect with
  | enter callee => exact .inl ⟨callee, rfl⟩
  | record | declare => simp [perform] at failed
  | results => exact .inr (typing _ failed)
  | unify a b =>
    simp only [perform, unify] at failed
    split at failed
    · exact .inr (typing _ failed)
    · simp at failed
  | freeze t pin =>
    simp only [perform, freeze] at failed
    split at failed
    · exact .inr (typing _ failed)
    · simp at failed

theorem enter_of_isDepthLimit {effect : Effect} {e : Failure}
    (failed : s.perform id enter effect = (.error e, s₁)) (deep : e.isDepthLimit) :
    ∃ callee, effect = .enter callee := by
  rcases enter_or_conflict failed with enters | ⟨conflict, rfl⟩
  · exact enters
  · simp [Failure.isDepthLimit] at deep

end Stores

namespace Setting

variable {g : Setting} {ids active : List Int32} {depth : Nat} {id : Int32} {s : Stores}

/-- Distinct scripts of the corpus, each of which calls the next. -/
structure CallChain (g : Setting) (chain : List Int32) : Prop where
  known : ∀ id ∈ chain, id ∈ g.scripts.keys
  distinct : chain.Nodup
  calls : chain.IsChain g.Enters

theorem CallChain.length_le {chain : List Int32} (h : g.CallChain chain) :
    chain.length ≤ g.scripts.size := by
  rw [← IntMap.length_keys]
  exact (List.Nodup.subperm h.distinct h.known).length_le

theorem known_of_enters {caller callee : Int32} (enters : g.Enters caller callee) :
    callee ∈ g.scripts.keys := by
  obtain ⟨code, before, after, found, -, follows⟩ :=
    follows_of_whole (r := (caller, .enter callee)) enters
  cases follows with
  | enter known => exact IntMap.mem_keys_iff.2 known

theorem callee_of_atLimit (visit : g.Visits ids ⟨depth + 1, active, id, s⟩)
    (known : id ∈ g.scripts.keys) (limit : AtLimit (g.interpretAt (depth + 1) active id s).1) :
    ∃ callee s', g.Enters id callee ∧ callee ∉ id :: active ∧
      g.Visits ids ⟨depth, id :: active, callee, s'⟩ ∧
      AtLimit (g.interpretAt depth (id :: active) callee s').1 := by
  cases kept : s.results.get? id with
  | some r =>
    rw [interpretAt_kept kept] at limit
    exact absurd limit (visit.lasting id r kept)
  | none =>
    obtain ⟨code, found⟩ := Option.isSome_iff_exists.1 (IntMap.mem_keys_iff.1 known)
    obtain ⟨outcome, s₁, performed, run, -⟩ := interpretAt_runs kept found depth active
    rw [run] at limit
    obtain ⟨e, failed, deep⟩ := limit
    cases outcome with
    | ok u =>
      -- A lift fails for a reason of its own.
      have own := (Context.lift_scoped found g.table).2.2 e failed
      simp [Failure.isDepthLimit_of_isOwn own] at deep
    | error e' =>
      obtain rfl : e' = e := Except.error.inj failed
      obtain ⟨before, effect, after, s', split, first, last⟩ := Stores.failed_performAll performed
      obtain ⟨callee, rfl⟩ := Stores.enter_of_isDepthLimit last deep
      have enters : g.Enters id callee := by
        rw [Enters, split]
        simp
      change g.entering depth active id callee s' = (.error e', s₁) at last
      rcases g.entering_eq depth active id callee s' with ⟨-, same⟩ | ⟨other, -, came⟩
      · simp [same] at last
      rw [last] at came
      rcases came with ⟨_, -, ok⟩ | ⟨e, answer, same⟩
      · simp at ok
      obtain rfl := Except.error.inj same
      exact ⟨callee, s', enters, other, .call visit kept found split first other, e, answer, deep⟩

/-- Where a script comes to the limit, calls go on from it as deep as is left. -/
theorem chain_of_atLimit (visit : g.Visits ids ⟨depth, active, id, s⟩)
    (known : id ∈ g.scripts.keys) (limit : AtLimit (g.interpretAt depth active id s).1) :
    ∃ chain, g.CallChain (id :: chain) ∧ chain.length = depth ∧ ∀ x ∈ chain, x ∉ active := by
  induction depth generalizing active id s with
  | zero => exact ⟨[], ⟨by simpa using known, by simp, by simp⟩, rfl, by simp⟩
  | succ depth ih =>
    obtain ⟨callee, s', enters, other, inner, deep⟩ := callee_of_atLimit visit known limit
    obtain ⟨chain, ⟨scripts, distinct, calls⟩, length, apart⟩ :=
      ih inner (known_of_enters enters) deep
    refine ⟨callee :: chain, ⟨?_, ?_, ?_⟩, by rw [List.length_cons, length], ?_⟩
    · intro x member
      rcases List.mem_cons.1 member with rfl | later
      · exact known
      · exact scripts x later
    · refine List.nodup_cons.2 ⟨fun member => ?_, distinct⟩
      rcases List.mem_cons.1 member with rfl | later
      · exact other (by simp)
      · exact apart id later (by simp)
    · exact List.isChain_cons_cons.2 ⟨enters, calls⟩
    · intro x member inside
      rcases List.mem_cons.1 member with rfl | later
      · exact other (by simp [inside])
      · exact apart x later (by simp [inside])

theorem interpretAll_eq (g : Setting) (s : Stores) :
    g.interpretAll s = (g.interpretEach g.scripts.keys s).2 := by
  unfold interpretAll
  induction g.scripts.keys generalizing s with
  | nil => rfl
  | cons id ids ih => exact ih _

theorem chain_of_lost (member : id ∈ ids) (known : id ∈ g.scripts.keys)
    (lost : (g.interpretEach ids .start).2.results.get? id = none) :
    ∃ chain, g.CallChain (id :: chain) ∧ chain.length = g.config.maxCallDepth := by
  obtain ⟨before, after, split⟩ := List.append_of_mem member
  have visit : g.Visits ids ⟨g.config.maxCallDepth, [], id, (g.interpretEach before .start).2⟩ :=
    .turn split
  have limit : AtLimit (g.interpretAt g.config.maxCallDepth [] id
      (g.interpretEach before .start).2).1 := by
    by_contra other
    have kept := visit.answer_kept (IntMap.mem_keys_iff.1 known) rfl other
    simp [lost] at kept
  obtain ⟨chain, calls, length, -⟩ := chain_of_atLimit visit known limit
  exact ⟨chain, calls, length⟩

theorem chain_of_neither (g : Setting) {id : Int32} (listed : id ∈ g.scripts.keys)
    (noFunction : id ∉ (FunctionSet.ofStores (g.interpretAll .start)).functions.keys)
    (noFailure : id ∉ (FunctionSet.ofStores (g.interpretAll .start)).failures.keys) :
    ∃ chain, g.CallChain (id :: chain) ∧ chain.length = g.config.maxCallDepth := by
  rw [interpretAll_eq] at noFunction noFailure
  refine chain_of_lost listed listed ?_
  rw [Option.eq_none_iff_forall_ne_some]
  intro r kept
  exact (FunctionSet.mem_either.2 ⟨r, kept⟩).elim noFunction noFailure

/-- When all scripts have been interpreted, each has at most one result. It has one if and only if
    some visit to it answered otherwise than with a failure for the limit on nested calls. One that
    has none heads a chain of calls between distinct scripts that is longer than the limit, so there
    is none if the limit is not below the number of scripts. -/
theorem listed_kept_iff (g : Setting) {id : Int32} (listed : id ∈ g.scripts.keys) :
    (id ∈ (FunctionSet.ofStores (g.interpretAll .start)).functions.keys →
      id ∉ (FunctionSet.ofStores (g.interpretAll .start)).failures.keys) ∧
    (id ∈ (FunctionSet.ofStores (g.interpretAll .start)).functions.keys ∨
        id ∈ (FunctionSet.ofStores (g.interpretAll .start)).failures.keys ↔
      ∃ v, g.Visits g.scripts.keys v ∧ v.script = id ∧ ¬ AtLimit (v.run g).1) ∧
    (id ∉ (FunctionSet.ofStores (g.interpretAll .start)).functions.keys →
      id ∉ (FunctionSet.ofStores (g.interpretAll .start)).failures.keys →
        ∃ chain, g.CallChain (id :: chain) ∧ chain.length = g.config.maxCallDepth) ∧
    (g.scripts.size ≤ g.config.maxCallDepth →
      id ∈ (FunctionSet.ofStores (g.interpretAll .start)).functions.keys ∨
        id ∈ (FunctionSet.ofStores (g.interpretAll .start)).failures.keys) := by
  have chained := g.chain_of_neither listed
  rw [interpretAll_eq] at chained ⊢
  rw [FunctionSet.mem_either]
  refine ⟨?_, ?_, chained, fun deep => ?_⟩
  · rw [FunctionSet.mem_functions, FunctionSet.mem_failures]
    rintro ⟨f, kept⟩ ⟨e, kept'⟩
    simp [kept] at kept'
  · constructor
    · rintro ⟨r, kept⟩
      obtain ⟨⟨v, visit, script, -, answer⟩, other⟩ := answered_of_kept kept
      exact ⟨v, visit, script, answer ▸ other⟩
    · rintro ⟨v, visit, rfl, other⟩
      exact ⟨_, visit.answer_kept (IntMap.mem_keys_iff.1 listed) rfl other⟩
  · by_contra lost
    rw [← FunctionSet.mem_either, not_or] at lost
    obtain ⟨chain, calls, length⟩ := chained lost.1 lost.2
    have short := calls.length_le
    rw [List.length_cons] at short
    omega

end Setting

namespace Sample

/-- Script 0 calls script 1, but no script may be interpreted inside another one. -/
def shallow : Setting :=
  .of ((IntMap.insert .empty 0 (.ofLines [.op .gosubWithParams (.int 1), .op .ret (.int 0)])).insert
    1 (.ofLines [.op .ret (.int 0)])) .none { Config.default with maxCallDepth := 1 }

theorem shallow_chain : 0 ∈ shallow.scripts.keys ∧
    (∃ chain, shallow.CallChain (0 :: chain) ∧ chain.length = 1) ∧
    ∃ v, shallow.Visits shallow.scripts.keys v ∧ v.script = 1 ∧ ¬ AtLimit (v.run shallow).1 := by
  have listed : 0 ∈ shallow.scripts.keys := by decide +kernel
  have listed' : 1 ∈ shallow.scripts.keys := by decide +kernel
  refine ⟨listed, ?_, ?_⟩
  · exact (Setting.listed_kept_iff shallow listed).2.2.1 (by decide +kernel) (by decide +kernel)
  · exact (Setting.listed_kept_iff shallow listed').2.1.1 (by decide +kernel)

/-- Script 0 comes to the limit and is lost. -/
theorem shallow_loses : 1 ≤ shallow.config.maxCallDepth ∧ 0 ∈ shallow.scripts.keys ∧
    0 ∉ (FunctionSet.ofStores (shallow.interpretAll .start)).functions.keys ∧
    0 ∉ (FunctionSet.ofStores (shallow.interpretAll .start)).failures.keys := by
  decide +kernel

end Sample

end ClientScript
