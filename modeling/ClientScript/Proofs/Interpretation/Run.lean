import ClientScript.Proofs.Calls.Projections
import ClientScript.Proofs.Interpretation.Effects
import ClientScript.Proofs.Lift.Interpretation
import ClientScript.Proofs.Lift.ScopedScripts
import Mathlib.Data.List.Perm.Subperm

/-!
Runs and what they have done. A run does some of the effects that the scripts ask for, and its
stores are those that the effects done determine, whatever the order was and whatever failed. If all
scripts lift, it fails only if what they say is contradictory, or if scripts are nested too deeply.
-/
namespace ClientScript

namespace Setting

open Typing Typings

def effectsOf (g : Setting) (script : Int32) : List Effect :=
  match g.scripts.get? script with
  | some code => ((g.context script code).lift g.table).effects
  | none => []

def whole (g : Setting) : Set Request := {r | r.2 ∈ g.effectsOf r.1}

def Liftable (g : Setting) : Prop :=
  ∀ script, (g.scripts.get? script).isSome → ∃ f, g.Lifts script f

/-- These effects are what the stores come from. -/
structure Explains (g : Setting) (done : Set Request) (s : Stores) : Prop where
  within : done ⊆ g.whole
  describes : Describes (factsOf done) s.typings.named s.typings
  calls : ∀ c : Call, c ∈ s.calls.calls ↔ (c.caller, .record c.callee c.trigger) ∈ done
  kept : ∀ script f, s.results.get? script = some (.ok f) →
    ∀ e ∈ g.effectsOf script, (script, e) ∈ done

def Clean (s : Stores) : Prop :=
  ∀ script r, s.results.get? script = some r → ∃ f, r = .ok f

variable {g : Setting} {done done' : Set Request} {s s' : Stores} {script : Int32} {code : Script}
variable {before : List Effect} {e : Effect}

theorem effectsOf_eq (found : g.scripts.get? script = some code) :
    g.effectsOf script = ((g.context script code).lift g.table).effects := by
  rw [effectsOf, found]

theorem lifted_of_liftable (lifts : g.Liftable) (found : g.scripts.get? script = some code) :
    ∃ f, ((g.context script code).lift g.table).result = .ok f := by
  obtain ⟨f, code', found', lifted⟩ := lifts script (by rw [found]; rfl)
  obtain rfl : code = code' := Option.some.inj (found.symm.trans found')
  exact ⟨f, lifted⟩

theorem scoped_effectsOf (found : g.scripts.get? script = some code) :
    Scoped (g.context script code) (g.effectsOf script) := by
  rw [effectsOf_eq found]
  exact (Context.lift_scoped found g.table).1

theorem follows_of_whole {r : Request} (asked : r ∈ g.whole) :
    ∃ code before after, g.scripts.get? r.1 = some code ∧
      g.effectsOf r.1 = before ++ r.2 :: after ∧ Follows (g.context r.1 code) before r.2 := by
  obtain ⟨before, after, split⟩ := List.append_of_mem asked
  cases found : g.scripts.get? r.1 with
  | none =>
    rw [effectsOf, found] at split
    simp at split
  | some code => exact ⟨code, before, after, rfl, split, scoped_effectsOf found _ _ _ split⟩

theorem exists_puts {t : TypeVar} (declares : t ∈ e.declares) : ∃ stack, e.puts t stack := by
  cases e with
  | declare u stack types => exact ⟨stack, List.mem_singleton.1 declares, rfl⟩
  | results callee types =>
    obtain ⟨slot, inside, rfl⟩ := List.mem_map.1 declares
    exact ⟨types.get ⟨slot, List.mem_range.1 inside⟩, slot, rfl, List.getElem?_eq_getElem _⟩
  | _ => simp [Effect.declares] at declares

theorem declare_agrees {r r' : Request} (asked : r ∈ g.whole)
    (asked' : r' ∈ g.whole) {t : TypeVar} {stack stack' : StackType} {types types' : List ValueType}
    (declares : r.2 = .declare t stack types) (declares' : r'.2 = .declare t stack' types') :
    stack' = stack ∧ types' = types := by
  obtain ⟨code, before, after, found, split, follows⟩ := follows_of_whole asked
  obtain ⟨code', before', after', found', split', follows'⟩ := follows_of_whole asked'
  rw [declares] at follows split
  rw [declares'] at follows' split'
  rcases follows.of_declare with ⟨v, rfl, rfl, rfl⟩ | ⟨n, pin, rfl, -, -, fresh⟩
  · rcases follows'.of_declare with ⟨v', same, rfl, rfl⟩ | ⟨n', pin', same, -⟩
    · obtain rfl : v = v' := TypeVar.ofVariable.inj same
      exact ⟨rfl, rfl⟩
    · simp at same
  · rcases follows'.of_declare with ⟨v', same, -⟩ | ⟨n', pin', same, -, -, fresh'⟩
    · simp at same
    · -- The script that a nameless value is of declares it once.
      have one : r.1 = r'.1 := (TypeVar.ofValue.inj same).1
      rw [← one] at split'
      have equal := eq_of_fresh (split.symm.trans split') (by simp [Effect.declares])
        (by simp [Effect.declares]) fresh fresh'
      obtain ⟨-, rfl, rfl⟩ := Effect.declare.inj equal
      exact ⟨rfl, rfl⟩

theorem not_result_of_declare {r : Request} (asked : r ∈ g.whole) {t : TypeVar}
    {stack : StackType} {types : List ValueType} (declares : r.2 = .declare t stack types)
    (callee : Int32) (slot : Nat) : t ≠ .ofResult callee slot := by
  obtain ⟨_, before, _, _, _, follows⟩ := follows_of_whole asked
  rw [declares] at follows
  rcases follows.of_declare with ⟨v, rfl, -⟩ | ⟨n, pin, rfl, -⟩ <;> simp

theorem typed_cases {t : TypeVar} {stack : StackType} (typed : (factsOf done).typed t stack) :
    (∃ r ∈ done, ∃ types, r.2 = .declare t stack types) ∨
    ∃ r ∈ done, ∃ callee types slot, r.2 = .results callee types ∧ t = .ofResult callee slot ∧
      types[slot]? = some stack := by
  obtain ⟨r, member, puts⟩ := typed
  cases shape : r.2 with
  | declare u st types =>
    rw [shape] at puts
    obtain ⟨rfl, rfl⟩ := puts
    exact .inl ⟨r, member, types, shape⟩
  | results callee types =>
    rw [shape] at puts
    obtain ⟨slot, rfl, held⟩ := puts
    exact .inr ⟨r, member, callee, types, slot, shape, rfl, held⟩
  | _ => simp [shape, Effect.puts] at puts

theorem declare_known (within : done ⊆ g.whole) {t : TypeVar}
    {stack stack' : StackType} {types : List ValueType}
    (asked : (script, .declare t stack types) ∈ g.whole)
    (typed : (factsOf done).typed t stack') :
    stack' = stack ∧ ∀ p ∈ types, (factsOf done).pinned t p := by
  rcases typed_cases typed with ⟨r, member, ts, shape⟩ | ⟨r, -, callee, ts, slot, -, rfl, -⟩
  · obtain ⟨rfl, rfl⟩ := declare_agrees asked (within member) rfl shape
    exact ⟨rfl, fun p pinned => ⟨r, member, shape ▸ ⟨rfl, pinned⟩⟩⟩
  · exact absurd rfl (not_result_of_declare asked rfl callee slot)

theorem results_known (within : done ⊆ g.whole) {callee : Int32}
    {types : List StackType} (asked : (script, .results callee types) ∈ g.whole) {slot : Nat}
    {stack wanted : StackType} (typed : (factsOf done).typed (.ofResult callee slot) stack)
    (found : types[slot]? = some wanted) : stack = wanted := by
  rcases typed_cases typed with
    ⟨r, member, ts, shape⟩ | ⟨r, member, callee', ts, slot', shape, same, held⟩
  · exact absurd rfl (not_result_of_declare (within member) shape callee slot)
  · obtain ⟨rfl, rfl⟩ := TypeVar.ofResult.inj same
    obtain ⟨_, before, _, _, _, follows⟩ := follows_of_whole (within member)
    obtain ⟨_, before', _, _, _, follows'⟩ := follows_of_whole asked
    rw [shape] at follows
    obtain ⟨code, known, rfl⟩ := follows.of_results
    obtain ⟨code', known', rfl⟩ := follows'.of_results
    obtain rfl : code = code' := Option.some.inj (known.symm.trans known')
    exact Option.some.inj (held.symm.trans found)

theorem isName_of_typed (within : done ⊆ g.whole) {t : TypeVar}
    {stack : StackType} (typed : (factsOf done).typed t stack) : t.isName := by
  rcases typed_cases typed with ⟨r, member, ts, shape⟩ | ⟨r, -, callee, ts, slot, -, rfl, -⟩
  · obtain ⟨_, before, _, _, _, follows⟩ := follows_of_whole (within member)
    rw [shape] at follows
    rcases follows.of_declare with ⟨v, rfl, -⟩ | ⟨n, pin, rfl, -⟩ <;> rfl
  · rfl

/-- What a part of a run comes to: more is done, all that is to do if it succeeds; and where it
    fits and nothing failed before, nothing fails. -/
inductive Advances (g : Setting) (done : Set Request) (s : Stores) (todo : Set Request)
    (fits : Prop) {α : Type} (r : Except Failure α × Stores) : Prop where
  | intro (done' : Set Request) (more : done ⊆ done') (explains : g.Explains done' r.2)
      (complete : ∀ a, r.1 = .ok a → todo ⊆ done')
      (safe : fits → Clean s → (∃ a, r.1 = .ok a) ∧ Clean r.2) : Advances g done s todo fits r

/-- What an effect comes to that enters no callee: it is done, or nothing is done because with it
    what is done would be contradictory. -/
inductive Settles (g : Setting) (done : Set Request) (q : Request)
    (r : Except Failure Unit × Stores) : Prop where
  | done (ok : r.1 = .ok ()) (explains : g.Explains (insert q done) r.2) : Settles g done q r
  | refused {f : Failure} (failed : r.1 = .error f) (explains : g.Explains done r.2)
      (clash : ¬ (factsOf (insert q done)).Consistent) : Settles g done q r

theorem Explains.typing (h : g.Explains done s) {q : Request} (asked : q ∈ g.whole)
    (quiet : q.2.edge? = none) {typings : Typings}
    (describes : Describes (factsOf (insert q done)) typings.named typings) :
    g.Explains (insert q done) { s with typings := typings } := by
  constructor
  · exact Set.insert_subset asked h.within
  · exact describes
  · intro c
    rw [h.calls c, Set.mem_insert_iff]
    refine ⟨.inr, ?_⟩
    rintro (rfl | old)
    · simp [Effect.edge?] at quiet
    · exact old
  · intro script f kept e asked
    exact .inr (h.kept script f kept e asked)

/-- A typing operation says what the effect says, or what it says is contradictory. -/
theorem settles_withTypings (h : g.Explains done s) {q : Request} (asked : q ∈ g.whole)
    (quiet : q.2.edge? = none) {r : Except Conflict Unit × Typings}
    (came : r.1 = .ok () ∧ Describes (factsOf (insert q done)) r.2.named r.2 ∨
      (∃ c, r.1 = .error c) ∧ Describes (factsOf done) r.2.named r.2 ∧
        ¬ (factsOf (insert q done)).Consistent) : g.Settles done q (s.withTypings r) := by
  rcases came with ⟨ok, describes⟩ | ⟨⟨c, failed⟩, describes, clash⟩
  · exact .done (by rw [Stores.withTypings, ok]; rfl) (h.typing asked quiet describes)
  · exact .refused (by rw [Stores.withTypings, failed]; rfl)
      ⟨h.within, describes, h.calls, h.kept⟩ clash

theorem named_congr {t t' : Typings} (names : t'.names = t.names) : t'.named = t.named := by
  funext u
  rw [named, named, names]

theorem Explains.cell (h : g.Explains done s)
    (performed : ∀ b ∈ before, (script, b) ∈ done) {t : TypeVar} (known : t ∈ declared before) :
    ∃ i, s.typings.cell? t = some i ∧ s.typings.named t = some i := by
  obtain ⟨b, member, declares⟩ := List.mem_flatMap.1 known
  obtain ⟨stack, puts⟩ := exists_puts declares
  have typed : (factsOf done).typed t stack := ⟨_, performed b member, puts⟩
  obtain ⟨i, cell, -⟩ := (h.describes.typed t stack).1 typed
  exact ⟨i, (cell?_eq_named (isName_of_typed h.within typed)).trans cell, cell⟩

theorem settles_unify (h : g.Explains done s)
    (performed : ∀ b ∈ before, (script, b) ∈ done) {a b : TypeVar}
    (asked : (script, .unify a b) ∈ g.whole) (left : a ∈ declared before)
    (right : b ∈ declared before) : g.Settles done (script, .unify a b) (s.unify a b) := by
  obtain ⟨i, cellA, namedA⟩ := h.cell performed left
  obtain ⟨j, cellB, namedB⟩ := h.cell performed right
  rw [Stores.unify, cellA, cellB]
  apply settles_withTypings h asked rfl
  have names := (kept_merge (h.describes.inside a i namedA) (h.describes.inside b j namedB)).2
  rw [factsOf_unify, named_congr names]
  exact h.describes.merge namedA namedB

theorem settles_freeze (h : g.Explains done s)
    (performed : ∀ b ∈ before, (script, b) ∈ done) {t : TypeVar} {pin : ValueType}
    (asked : (script, .freeze t pin) ∈ g.whole) (known : t ∈ declared before) :
    g.Settles done (script, .freeze t pin) (s.freeze t pin) := by
  obtain ⟨i, cell, named⟩ := h.cell performed known
  rw [Stores.freeze, cell]
  apply settles_withTypings h asked rfl
  have names := (kept_freeze (h.describes.inside t i named) pin).2
  rw [factsOf_freeze, named_congr names]
  exact h.describes.freeze named pin

theorem Explains.declare (h : g.Explains done s) {t : TypeVar} {stack : StackType}
    {types : List ValueType} (asked : (script, .declare t stack types) ∈ g.whole) :
    g.Explains (insert (script, .declare t stack types) done)
      { s with typings := s.typings.declare t stack types } := by
  apply h.typing asked rfl
  obtain ⟨_, before, _, _, _, follows⟩ := follows_of_whole asked
  rw [factsOf_declare]
  have known : ∀ stack', (factsOf done).typed t stack' →
      stack' = stack ∧ ∀ p ∈ types, (factsOf done).pinned t p := fun stack' typed =>
    declare_known h.within asked typed
  rcases follows.of_declare with ⟨v, rfl, rfl, rfl⟩ | ⟨n, pin, name, rfl, onStack, -⟩
  · have form : NormalForm {t | t ∈ ([] : List ValueType)} [] := by simpa using normalForm_nil
    exact h.describes.declare rfl form (by simp) known
  · have form : NormalForm {t | t ∈ pin.toList} pin.toList := by
      cases pin with
      | none => simpa using normalForm_nil
      | some p => simpa using normalForm_one p
    have isName : t.isName := by
      rw [name]
      rfl
    exact h.describes.declare isName form (by simpa using onStack) known

theorem Explains.results (h : g.Explains done s) {callee : Int32} {types : List StackType}
    (asked : (script, .results callee types) ∈ g.whole) :
    (s.typings.declareResults callee types).1 = .ok () ∧
      g.Explains (insert (script, .results callee types) done)
        { s with typings := (s.typings.declareResults callee types).2 } := by
  obtain ⟨ok, describes⟩ := h.describes.declareResults callee types 0 fun k st typed w found => by
    rw [Nat.zero_add] at typed
    exact results_known h.within asked typed found
  refine ⟨ok, h.typing asked rfl ?_⟩
  rw [factsOf_results]
  exact describes

theorem Explains.record (h : g.Explains done s) {callee : Int32} {trigger : Trigger}
    (asked : (script, .record callee trigger) ∈ g.whole) :
    g.Explains (insert (script, .record callee trigger) done)
      { s with calls := (s.calls.record ⟨script, callee, trigger⟩).2 } := by
  constructor
  · exact Set.insert_subset asked h.within
  · rw [factsOf_record]
    exact h.describes
  · rintro ⟨caller, called, by_⟩
    rw [CallGraph.mem_record, h.calls, Set.mem_insert_iff, or_comm]
    simp
  · intro script f kept e asked
    exact .inr (h.kept script f kept e asked)

theorem Explains.mention (h : g.Explains done s) (script : Int32) :
    g.Explains done { s with calls := s.calls.mention script } := by
  refine ⟨h.within, h.describes, ?_, h.kept⟩
  rw [CallGraph.calls_mention]
  exact h.calls

theorem mem_whole {after : List Effect} (split : g.effectsOf script = before ++ e :: after) :
    (script, e) ∈ g.whole := by
  change e ∈ g.effectsOf script
  rw [split]
  simp

theorem settles_perform (h : g.Explains done s) (found : g.scripts.get? script = some code)
    {after : List Effect} (split : g.effectsOf script = before ++ e :: after)
    (performed : ∀ b ∈ before, (script, b) ∈ done) (quiet : ¬ ∃ callee, e = .enter callee)
    (enter : Int32 → Stores → Except Failure Unit × Stores) :
    g.Settles done (script, e) (s.perform script enter e) := by
  have asked := mem_whole split
  cases scoped_effectsOf found _ _ _ split with
  | enter known => exact absurd ⟨_, rfl⟩ quiet
  | record callee trigger => exact .done rfl (h.record asked)
  | ofVariable | ofValue => exact .done rfl (h.declare asked)
  | results =>
    obtain ⟨ok, explains⟩ := h.results asked
    exact .done (by rw [Stores.perform, Stores.withTypings, ok]; rfl) explains
  | unify left right => exact settles_unify h performed asked left right
  | freeze known pin => exact settles_freeze h performed asked known

theorem Settles.advances {q : Request} {r : Except Failure Unit × Stores}
    (settles : g.Settles done q r) (h : g.Explains done s) (asked : q ∈ g.whole) {fits : Prop}
    (consistent : fits → (factsOf g.whole).Consistent) (same : r.2.results = s.results) :
    g.Advances done s {q} fits r := by
  cases settles with
  | done ok explains =>
    apply Advances.intro _ (Set.subset_insert q done) explains
    · intro _ _
      exact Set.singleton_subset_iff.2 (Set.mem_insert q done)
    · intro _ clean
      exact ⟨⟨(), ok⟩, fun script f kept => clean script f (same ▸ kept)⟩
  | refused failed explains clash =>
    apply Advances.intro done subset_rfl explains
    · intro a ok
      simp [failed] at ok
    · intro fit _
      have within : insert q done ⊆ g.whole := Set.insert_subset asked h.within
      exact absurd ((consistent fit).mono (factsOf_mono within)) clash

theorem advances_perform (h : g.Explains done s)
    (found : g.scripts.get? script = some code) {after : List Effect}
    (split : g.effectsOf script = before ++ e :: after)
    (performed : ∀ b ∈ before, (script, b) ∈ done) {fits : Prop}
    (consistent : fits → (factsOf g.whole).Consistent)
    {enter : Int32 → Stores → Except Failure Unit × Stores}
    (enters : ∀ callee, (g.scripts.get? callee).isSome →
      g.Advances done s ∅ fits (enter callee s)) :
    g.Advances done s {(script, e)} fits (s.perform script enter e) := by
  have asked := mem_whole split
  rcases Classical.em (∃ callee, e = .enter callee) with ⟨callee, rfl⟩ | quiet
  · cases scoped_effectsOf found _ _ _ split with
    | enter known =>
      obtain ⟨done', more, explains, -, safe⟩ := enters callee known
      have explains' : g.Explains (insert (script, .enter callee) done') (enter callee s).2 := by
        apply explains.typing asked rfl
        rw [factsOf_enter]
        exact explains.describes
      apply Advances.intro _ (more.trans (Set.subset_insert _ _)) explains' _ safe
      intro _ _
      exact Set.singleton_subset_iff.2 (Set.mem_insert _ _)
  · exact (settles_perform h found split performed quiet enter).advances h asked consistent
      (results_perform_of_ne quiet ..)

theorem Advances.trans {α β : Type} {todo todo' : Set Request} {fits : Prop}
    {r : Except Failure α × Stores} {r' : Except Failure β × Stores} {a : α}
    (first : g.Advances done s todo fits r) (ok : r.1 = .ok a)
    (later : ∀ done', done ⊆ done' → todo ⊆ done' → g.Explains done' r.2 →
      g.Advances done' r.2 todo' fits r') : g.Advances done s (todo ∪ todo') fits r' := by
  obtain ⟨done', more, explains, complete, safe⟩ := first
  obtain ⟨done'', more', explains', complete', safe'⟩ := later done' more (complete a ok) explains
  apply Advances.intro done'' (more.trans more') explains'
  · intro b ok'
    exact Set.union_subset ((complete a ok).trans more') (complete' b ok')
  · intro fit clean
    exact safe' fit (safe fit clean).2

theorem Advances.mono {α : Type} {todo : Set Request} {fits fits' : Prop}
    {r : Except Failure α × Stores} (h : g.Advances done s todo fits r) (fit : fits' → fits) :
    g.Advances done s todo fits' r := by
  obtain ⟨done', more, explains, complete, safe⟩ := h
  exact ⟨done', more, explains, complete, fun now => safe (fit now)⟩

theorem Advances.failed {α β : Type} {todo todo' : Set Request} {fits : Prop} {f f' : Failure}
    {s'' : Stores} (part : g.Advances done s todo fits ((.error f, s') : Except Failure α × Stores))
    (keeps : ∀ done', g.Explains done' s' → g.Explains done' s'') :
    g.Advances done s todo' fits ((.error f', s'') : Except Failure β × Stores) := by
  obtain ⟨done', more, explains, -, safe⟩ := part
  apply Advances.intro done' more (keeps done' explains)
  · intro b ok
    simp at ok
  · intro fit clean
    obtain ⟨⟨a, ok⟩, -⟩ := safe fit clean
    simp at ok

theorem advances_refused {α : Type} (h : g.Explains done s) (todo : Set Request) {fits : Prop}
    (unfit : ¬ fits) (f : Failure) :
    g.Advances done s todo fits ((.error f, s) : Except Failure α × Stores) := by
  apply Advances.intro done subset_rfl h
  · intro a ok
    simp at ok
  · intro fit
    exact absurd fit unfit

theorem advances_performAll (found : g.scripts.get? script = some code)
    {fits : Prop} (consistent : fits → (factsOf g.whole).Consistent)
    {enter : Int32 → Stores → Except Failure Unit × Stores}
    (enters : ∀ callee done s, (g.scripts.get? callee).isSome → g.Explains done s →
      g.Advances done s ∅ fits (enter callee s))
    (rest : List Effect) (before : List Effect) (split : g.effectsOf script = before ++ rest)
    (h : g.Explains done s) (performed : ∀ b ∈ before, (script, b) ∈ done) :
    g.Advances done s {r | r.1 = script ∧ r.2 ∈ rest} fits (s.performAll script enter rest) := by
  induction rest generalizing before done s with
  | nil =>
    apply Advances.intro done subset_rfl h
    · rintro _ _ r ⟨-, none⟩
      simp at none
    · intro _ clean
      exact ⟨⟨(), rfl⟩, clean⟩
  | cons e rest ih =>
    have one := advances_perform h found split performed consistent fun callee known =>
      enters callee done s known h
    have todo : {r : Request | r.1 = script ∧ r.2 ∈ e :: rest} =
        {(script, e)} ∪ {r | r.1 = script ∧ r.2 ∈ rest} := by
      ext ⟨script', e'⟩
      simp only [Set.mem_union, Set.mem_singleton_iff, Set.mem_ofPred_eq, Prod.mk.injEq,
        List.mem_cons, and_or_left]
    simp only [Stores.performAll, todo]
    rcases result : s.perform script enter e with ⟨outcome, s'⟩
    rw [result] at one
    cases outcome with
    | ok u =>
      apply one.trans rfl
      intro done' more did explains
      apply ih (before ++ [e]) (by rw [split]; simp) explains
      intro b member
      rcases List.mem_append.1 member with old | new
      · exact more (performed b old)
      · exact did (by rw [List.mem_singleton.1 new]; rfl)
    | error f => exact one.failed fun _ explains => explains

/-- There is room for a script: it is a script that is not in progress, and even if all others
    come to be in progress, the nesting left suffices. -/
structure Room (g : Setting) (depth : Nat) (active : List Int32) (script : Int32) : Prop where
  known : (g.scripts.get? script).isSome
  other : script ∉ active
  distinct : active.Nodup
  scripts : ∀ id ∈ active, (g.scripts.get? id).isSome
  deep : g.scripts.size ≤ active.length + depth

theorem Room.length_lt {depth : Nat} {active : List Int32} (h : g.Room depth active script) :
    active.length < g.scripts.size := by
  have nodup : (script :: active).Nodup := List.nodup_cons.2 ⟨h.other, h.distinct⟩
  have sub : script :: active ⊆ g.scripts.keys := by
    intro id member
    rw [IntMap.mem_keys_iff]
    rcases List.mem_cons.1 member with rfl | inside
    · exact h.known
    · exact h.scripts id inside
  have le := (List.Nodup.subperm nodup sub).length_le
  simp only [List.length_cons, IntMap.length_keys] at le
  omega

theorem Room.callee {depth : Nat} {active : List Int32} (h : g.Room (depth + 1) active script)
    {callee : Int32} (known : (g.scripts.get? callee).isSome) (other : callee ∉ script :: active) :
    g.Room depth (script :: active) callee := by
  refine ⟨known, other, List.nodup_cons.2 ⟨h.other, h.distinct⟩, ?_, ?_⟩
  · intro id member
    rcases List.mem_cons.1 member with rfl | inside
    · exact h.known
    · exact h.scripts id inside
  · have deep := h.deep
    simp only [List.length_cons]
    omega

theorem Explains.keep (h : g.Explains done s) {r : Except Failure Function}
    (complete : ∀ f, r = .ok f → ∀ e ∈ g.effectsOf script, (script, e) ∈ done) :
    g.Explains done (s.keep script r) := by
  have inserted : g.Explains done { s with results := s.results.insert script r } := by
    refine ⟨h.within, h.describes, h.calls, ?_⟩
    intro id f kept
    rw [IntMap.get?_insert] at kept
    split at kept
    · rename_i same
      exact same ▸ complete f (Option.some.inj kept)
    · exact h.kept id f kept
  unfold Stores.keep
  split
  · split
    · exact h
    · exact inserted
  · exact inserted

theorem Clean.keep (h : Clean s) (script : Int32) (f : Function) :
    Clean (s.keep script (.ok f)) := by
  intro id r kept
  simp only [Stores.keep, IntMap.get?_insert] at kept
  split at kept
  · exact ⟨f, (Option.some.inj kept).symm⟩
  · exact h id r kept

theorem advances_kept (h : g.Explains done s) {r : Except Failure Function}
    (kept : s.results.get? script = some r) (fits : Prop) :
    g.Advances done s {q | q.1 = script ∧ q.2 ∈ g.effectsOf script} fits (r, s) := by
  apply Advances.intro done subset_rfl h
  · rintro f rfl ⟨_, e⟩ ⟨rfl, asked⟩
    exact h.kept _ f kept e asked
  · intro _ clean
    exact ⟨clean script r kept, clean⟩

theorem advances_runWith (found : g.scripts.get? script = some code)
    {fits : Prop} (consistent : fits → (factsOf g.whole).Consistent) (lifts : fits → g.Liftable)
    {enter : Int32 → Stores → Except Failure Unit × Stores}
    (enters : ∀ callee done s, (g.scripts.get? callee).isSome → g.Explains done s →
      g.Advances done s ∅ fits (enter callee s)) (h : g.Explains done s) :
    g.Advances done s {q | q.1 = script ∧ q.2 ∈ g.effectsOf script} fits
      (g.runWith enter script code s) := by
  -- Mentioning the script does not change what is kept.
  have all : g.Advances done s {q | q.1 = script ∧ q.2 ∈ g.effectsOf script} fits
      ({ s with calls := s.calls.mention script }.performAll script enter
        (g.effectsOf script)) := by
    obtain ⟨done', more, explains, complete, safe⟩ :=
      advances_performAll found consistent enters _ [] rfl (h.mention script) (by simp)
    exact ⟨done', more, explains, complete, safe⟩
  rw [effectsOf_eq found] at all ⊢
  unfold runWith
  generalize lifted : (g.context script code).lift g.table = t at all ⊢
  rcases result : Stores.performAll _ _ _ _ with ⟨outcome, s'⟩
  rw [result] at all
  cases outcome with
  | ok u =>
    obtain ⟨done', more, explains, complete, safe⟩ := all
    have did := complete u rfl
    have kept : g.Explains done' (s'.keep script t.result) := by
      apply explains.keep
      intro _ _ e asked
      rw [effectsOf_eq found, lifted] at asked
      exact did ⟨rfl, asked⟩
    simp only [result]
    refine ⟨done', more, kept, fun _ _ => did, fun fit clean => ?_⟩
    obtain ⟨f, ok⟩ := lifted_of_liftable (lifts fit) found
    rw [lifted] at ok
    rw [ok]
    exact ⟨⟨f, rfl⟩, (safe fit clean).2.keep script f⟩
  | error e =>
    simp only [result]
    apply all.failed
    intro done' explains
    apply explains.keep
    intro f ok
    simp at ok

theorem advances_interpretAt (depth : Nat) (active : List Int32) (script : Int32)
    (h : g.Explains done s) :
    g.Advances done s {q | q.1 = script ∧ q.2 ∈ g.effectsOf script}
      ((factsOf g.whole).Consistent ∧ g.Liftable ∧ g.Room depth active script)
      (g.interpretAt depth active script s) := by
  induction depth generalizing active script done s with
  | zero =>
    unfold interpretAt
    split
    · rename_i r kept
      exact advances_kept h kept _
    · apply advances_refused h
      rintro ⟨-, -, room⟩
      have lt := room.length_lt
      have deep := room.deep
      omega
  | succ depth ih =>
    unfold interpretAt
    split
    · rename_i r kept
      exact advances_kept h kept _
    split
    · rename_i none
      apply advances_refused h
      rintro ⟨-, -, room⟩
      have known := room.known
      simp [none] at known
    · rename_i code found
      apply advances_runWith found And.left (fun fit => fit.2.1) _ h
      intro callee done s known explains
      unfold enterWith
      split
      · exact ⟨done, subset_rfl, explains, fun _ _ => Set.empty_subset _,
          fun _ clean => ⟨⟨(), rfl⟩, clean⟩⟩
      · rename_i other
        have called := ih (script :: active) callee explains
        -- The callee takes one of the scripts not in progress, and one of the nesting.
        have room : (factsOf g.whole).Consistent ∧ g.Liftable ∧ g.Room (depth + 1) active script →
            (factsOf g.whole).Consistent ∧ g.Liftable ∧ g.Room depth (script :: active) callee :=
          fun fit => ⟨fit.1, fit.2.1, fit.2.2.callee known other⟩
        rcases result : g.interpretAt depth (script :: active) callee s with ⟨outcome, s'⟩
        rw [result] at called
        cases outcome with
        | ok f =>
          obtain ⟨done', more, explains', -, safe⟩ := called
          refine Advances.intro done' more explains' ?_ ?_
          · exact fun _ _ => Set.empty_subset _
          · intro fit clean
            exact ⟨⟨(), rfl⟩, (safe (room fit) clean).2⟩
        | error f => exact (called.mono room).failed fun _ explains => explains

end Setting

end ClientScript
