import ClientScript.Proofs.Interpretation.Stepwise
import ClientScript.Proofs.Lift.Reach
import ClientScript.Proofs.Typing.Independence

/-!
Scripts that have nothing to do with one another. A script reaches those that it asks for, those
that these ask for, and so on; what is interpreted on its account, and what that says of types,
stays among the scripts it reaches, and names only what they own and global variables. Main
statement: interpreting a script, which may fail, changes nothing for one with which it has no
script in common, unless it has left types on global variables that the other one names.
-/
namespace ClientScript

open Typing Typings

namespace Effect

variable {e : Effect} {t : TypeVar}

theorem mem_declares_of_puts {stack : StackType} (puts : e.puts t stack) : t ∈ e.declares := by
  cases e with
  | declare u st types => exact List.mem_singleton.2 puts.1
  | results callee types =>
    obtain ⟨slot, rfl, found⟩ := puts
    obtain ⟨inside, -⟩ := List.getElem?_eq_some_iff.1 found
    exact List.mem_map.2 ⟨slot, List.mem_range.2 inside, rfl⟩
  | _ => exact puts.elim

end Effect

namespace Setting

def Refers (g : Setting) (caller callee : Int32) : Prop :=
  ∃ e ∈ g.effectsOf caller, e.callee? = some callee

/-- A script reaches itself and what it asks for, directly or through others. -/
def Reach (g : Setting) : Int32 → Int32 → Prop := Relation.ReflTransGen g.Refers

def Names (g : Setting) (root : Int32) (t : TypeVar) : Prop :=
  ∃ script, g.Reach root script ∧ t ∈ declared (g.effectsOf script)

/-- The global variables that a script or one it reaches names are without types and each in a class
    of its own, among them. -/
structure Untouched (g : Setting) (root : Int32) (s : Typings) : Prop where
  untyped : ∀ v i, v.isGlobal → g.Names root (.ofVariable v) →
    s.cell? (.ofVariable v) = some i → s.typesOf i = []
  apart : ∀ v w, v.isGlobal → w.isGlobal → g.Names root (.ofVariable v) →
    g.Names root (.ofVariable w) → s.sameType (.ofVariable v) (.ofVariable w) → v = w

variable {g : Setting} {root script id : Int32} {done left : Set Request} {before : List Effect}
  {e : Effect} {t : TypeVar} {s s' : Stores}

theorem confined_effectsOf (g : Setting) (script : Int32) :
    Confined script (g.effectsOf script) := by
  unfold effectsOf
  split
  · exact (Context.lift_reaches _ _).1
  · simp [Confined]

theorem Names.reach (names : g.Names root t) {owner : Int32} (owned : owner ∈ t.owner?) :
    g.Reach root owner := by
  obtain ⟨script, reach, known⟩ := names
  obtain ⟨e, member, declares⟩ := List.mem_flatMap.1 known
  rcases confined_effectsOf g script e member t declares owner owned with rfl | asks
  · exact reach
  · exact reach.tail asks

theorem Names.isName (names : g.Names root t) : t.isName := by
  obtain ⟨script, -, known⟩ := names
  obtain ⟨e, member, declares⟩ := List.mem_flatMap.1 known
  obtain ⟨stack, puts⟩ := exists_puts declares
  have typed : (factsOf g.whole).typed t stack := ⟨(script, e), member, puts⟩
  exact isName_of_typed subset_rfl typed

/-- What two scripts name that have no script in common are global variables. -/
theorem global_of_names {a b : Int32} (apart : ∀ c, ¬ (g.Reach a c ∧ g.Reach b c))
    (first : g.Names a t) (second : g.Names b t) : ∃ v, v.isGlobal ∧ t = .ofVariable v := by
  have name := first.isName
  have none : ∀ owner, owner ∉ t.owner? := fun owner owned =>
    apart owner ⟨first.reach owned, second.reach owned⟩
  cases t with
  | cell n => simp [TypeVar.isName] at name
  | ofResult script slot => exact absurd rfl (none script)
  | ofValue script n => exact absurd rfl (none script)
  | ofVariable v =>
    refine ⟨v, ?_, rfl⟩
    cases v with
    | stack script _ _ | localVar script _ _ | array script _ => exact absurd rfl (none script)
    | varp | varbit | varcInt | varcString => rfl

theorem names_of_declared {after : List Effect} (reach : g.Reach root script)
    (split : g.effectsOf script = before ++ e :: after) (known : t ∈ declared before) :
    g.Names root t := by
  refine ⟨script, reach, ?_⟩
  rw [split, declared_append]
  exact List.mem_append_left _ known

theorem about_factsOf (within : done ⊆ g.whole) (inside : ∀ q ∈ done, g.Reach root q.1) :
    (factsOf done).About {t | g.Names root t} := by
  constructor
  · rintro t stack ⟨q, member, puts⟩
    exact ⟨q.1, inside q member,
      List.mem_flatMap.2 ⟨q.2, within member, Effect.mem_declares_of_puts puts⟩⟩
  · rintro a b ⟨q, member, joins⟩
    obtain ⟨code, before, after, -, split, follows⟩ := follows_of_whole (within member)
    cases shape : q.2 with
    | unify a' b' =>
      rw [shape] at joins follows
      obtain ⟨rfl, rfl⟩ := joins
      cases follows with
      | unify left right =>
        exact ⟨names_of_declared (inside q member) split left,
          names_of_declared (inside q member) split right⟩
    | _ => simp [shape, Effect.joins] at joins
  · rintro t p ⟨q, member, pins⟩
    obtain ⟨code, before, after, -, split, follows⟩ := follows_of_whole (within member)
    cases shape : q.2 with
    | declare u stack types =>
      rw [shape] at pins
      obtain ⟨rfl, -⟩ := pins
      exact ⟨q.1, inside q member,
        List.mem_flatMap.2 ⟨q.2, within member, shape ▸ List.mem_singleton.2 rfl⟩⟩
    | freeze u pin =>
      rw [shape] at pins follows
      obtain ⟨rfl, -⟩ := pins
      cases follows with
      | freeze known => exact names_of_declared (inside q member) split known
    | _ => simp [shape, Effect.pins] at pins

theorem factsOf_union (left done : Set Request) :
    factsOf (left ∪ done) = (factsOf left).union (factsOf done) := by
  ext <;> simp only [factsOf, Facts.union, Set.mem_union, or_and_right, exists_or]

/-- Stores of a run for a script, and stores of the same run where something else was done before:
    the same is done in both, and the results of the scripts that the script reaches agree. -/
structure Beside (g : Setting) (left : Set Request) (root : Int32) (stack : List Pending)
    (s s' : Stores) (done : Set Request) : Prop where
  results : ∀ c, g.Reach root c → s'.results.get? c = s.results.get? c
  kept : ∀ c r, s.results.get? c = some r → g.Reach root c
  inside : ∀ q ∈ done, g.Reach root q.1
  explains : g.Explains done s
  together : g.Explains (left ∪ done) s'
  pending : ∀ p ∈ stack, g.Reach root p.script ∧ ∃ before,
    g.effectsOf p.script = before ++ p.rest ∧ ∀ e ∈ before, (p.script, e) ∈ done

structure Alongside (g : Setting) (left : Set Request) (root : Int32) (m m' : Moment) : Prop where
  stack : m'.stack = m.stack
  answer : m'.answer = m.answer
  beside : ∃ done, g.Beside left root m.stack m.stores m'.stores done

variable {stack : List Pending} {p : Pending} {rest : List Effect} {m m' : Moment} {u u' : Stores}

/-- What the first script said leaves alone what the second one names. -/
abbrev Unrelated (g : Setting) (left : Set Request) (root : Int32) : Prop :=
  (factsOf left).Leaves {t | g.Names root t}

theorem outcome_performHere (unrelated : g.Unrelated left root)
    (h : g.Beside left root (⟨id, e :: rest⟩ :: stack) s s' done) :
    (performHere id s' e).1 = (performHere id s e).1 := by
  obtain ⟨reach, before, split, performed⟩ := h.pending _ List.mem_cons_self
  have about := about_factsOf h.explains.within h.inside
  have first := h.explains.describes
  have second := h.together.describes
  rw [factsOf_union] at second
  have cells : ∀ t ∈ declared before, ∃ i i', s.typings.named t = some i ∧
      s.typings.cell? t = some i ∧ s'.typings.named t = some i' ∧
      s'.typings.cell? t = some i' := by
    intro t known
    obtain ⟨i, cell, named⟩ := h.explains.cell performed known
    obtain ⟨i', cell', named'⟩ := h.together.cell (fun b member => .inr (performed b member)) known
    exact ⟨i, i', named, cell, named', cell'⟩
  have asked := mem_whole split
  obtain ⟨code, found⟩ : ∃ code, g.scripts.get? id = some code := by
    obtain ⟨code, _, _, found, -⟩ := follows_of_whole asked
    exact ⟨code, found⟩
  cases scoped_effectsOf found _ _ _ split with
  | enter | record | ofVariable | ofValue => rfl
  | results =>
    simp only [performHere, Stores.perform, Stores.withTypings]
    rw [(h.explains.results asked).1, (h.together.results asked).1]
  | unify left right =>
    obtain ⟨i, i', named, cell, named', cell'⟩ := cells _ left
    obtain ⟨j, j', namedR, cellR, namedR', cellR'⟩ := cells _ right
    simp only [performHere, Stores.perform, Stores.unify, cell, cellR, cell', cellR',
      Stores.withTypings]
    rw [merge_outcome (first.inside _ _ named) (first.inside _ _ namedR),
      merge_outcome (second.inside _ _ named') (second.inside _ _ namedR'),
      first.sameClass_of_leaves unrelated about second named named' namedR namedR',
      first.summary_of_leaves unrelated about second named named',
      first.summary_of_leaves unrelated about second namedR namedR']
  | freeze known pin =>
    obtain ⟨i, i', named, cell, named', cell'⟩ := cells _ known
    simp only [performHere, Stores.perform, Stores.freeze, cell, cell', Stores.withTypings]
    rw [freeze_outcome (first.inside _ _ named), freeze_outcome (second.inside _ _ named'),
      first.summary_of_leaves unrelated about second named named']

theorem get?_keep_congr {c : Int32} (same : s'.results.get? c = s.results.get? c)
    (r : Except Failure Function) :
    (s'.keep id r).results.get? c = (s.keep id r).results.get? c := by
  by_cases limit : AtLimit r
  · rw [Stores.keep_of_atLimit limit, Stores.keep_of_atLimit limit, same]
  · rw [Stores.keep_of_not_atLimit limit, Stores.keep_of_not_atLimit limit, IntMap.get?_insert,
      IntMap.get?_insert, same]

namespace Beside

theorem stores (h : g.Beside left root stack s s' done) (explains : g.Explains done u)
    (together : g.Explains (left ∪ done) u') (same : u.results = s.results)
    (same' : u'.results = s'.results) : g.Beside left root stack u u' done := by
  refine ⟨?_, ?_, h.inside, explains, together, h.pending⟩
  · rw [same, same']
    exact h.results
  · rw [same]
    exact h.kept

theorem advance (h : g.Beside left root (⟨id, e :: rest⟩ :: stack) s s' done)
    (explains : g.Explains (insert (id, e) done) u)
    (together : g.Explains (insert (id, e) (left ∪ done)) u') (same : u.results = s.results)
    (same' : u'.results = s'.results) :
    g.Beside left root (⟨id, rest⟩ :: stack) u u' (insert (id, e) done) := by
  obtain ⟨reach, before, split, performed⟩ := h.pending _ List.mem_cons_self
  refine ⟨?_, ?_, ?_, explains, ?_, ?_⟩
  · rw [same, same']
    exact h.results
  · rw [same]
    exact h.kept
  · rintro q (rfl | old)
    · exact reach
    · exact h.inside q old
  · rw [Set.union_insert]
    exact together
  · intro p member
    rcases List.mem_cons.1 member with rfl | outer
    · refine ⟨reach, before ++ [e], by simp [split], ?_⟩
      intro b among
      rcases List.mem_append.1 among with old | new
      · exact .inr (performed b old)
      · exact .inl (by rw [List.mem_singleton.1 new])
    · obtain ⟨reach', before', split', performed'⟩ := h.pending p (List.mem_cons_of_mem _ outer)
      exact ⟨reach', before', split', fun b among => .inr (performed' b among)⟩

theorem leave (h : g.Beside left root (p :: stack) s s' done) {r : Except Failure Function}
    (complete : ∀ f, r = .ok f → p.rest = []) :
    g.Beside left root stack (s.keep p.script r) (s'.keep p.script r) done := by
  obtain ⟨reach, before, split, performed⟩ := h.pending _ List.mem_cons_self
  have did : ∀ f, r = .ok f → ∀ e ∈ g.effectsOf p.script, (p.script, e) ∈ done := by
    intro f ok e member
    rw [split, complete f ok, List.append_nil] at member
    exact performed e member
  refine ⟨fun c among => get?_keep_congr (h.results c among) r, ?_, h.inside,
    h.explains.keep did, h.together.keep fun f ok e member => .inr (did f ok e member),
    fun p' among => h.pending p' (List.mem_cons_of_mem _ among)⟩
  intro c r' now
  by_cases own : c = p.script
  · exact own ▸ reach
  · rw [Stores.get?_keep_of_ne own] at now
    exact h.kept c r' now

end Beside

theorem alongside_leave (h : g.Beside left root (p :: stack) s s' done)
    {r : Except Failure Function} (complete : ∀ f, r = .ok f → p.rest = []) :
    g.Alongside left root (leave p.script r stack s) (leave p.script r stack s') :=
  ⟨rfl, rfl, done, h.leave complete⟩

theorem alongside_goOn (h : g.Beside left root (⟨id, rest⟩ :: stack) s s' done)
    (outcome : Except Failure Unit) : g.Alongside left root (goOn ⟨id, rest⟩ stack (outcome, s))
      (goOn ⟨id, rest⟩ stack (outcome, s')) := by
  cases outcome with
  | ok => exact ⟨rfl, rfl, done, h⟩
  | error f => exact alongside_leave h (by simp)

theorem alongside_ask (h : g.Beside left root stack s s' done) (reach : g.Reach root id) :
    g.Alongside left root (g.ask id stack s) (g.ask id stack s') := by
  unfold ask
  rw [h.results id reach]
  split
  · exact ⟨rfl, rfl, done, h⟩
  · split
    · exact ⟨rfl, rfl, done, h⟩
    · split
      · refine ⟨rfl, rfl, done, ?_⟩
        have entered : g.Beside left root stack (mentioned id s) (mentioned id s') done :=
          h.stores (h.explains.mention id) (h.together.mention id) rfl rfl
        refine { entered with pending := ?_ }
        intro p member
        rcases List.mem_cons.1 member with rfl | outer
        · exact ⟨reach, [], rfl, by simp⟩
        · exact h.pending p outer
      · exact ⟨rfl, rfl, done, h⟩

theorem alongside_perform (unrelated : g.Unrelated left root)
    (h : g.Beside left root (⟨id, e :: rest⟩ :: stack) s s' done)
    (quiet : ¬ ∃ callee, e = .enter callee) :
    g.Alongside left root (goOn ⟨id, rest⟩ stack (performHere id s e))
      (goOn ⟨id, rest⟩ stack (performHere id s' e)) := by
  obtain ⟨reach, before, split, performed⟩ := h.pending _ List.mem_cons_self
  obtain ⟨code, found⟩ : ∃ code, g.scripts.get? id = some code := by
    obtain ⟨code, _, _, found, -⟩ := follows_of_whole (mem_whole split)
    exact ⟨code, found⟩
  have same := outcome_performHere unrelated h
  have results : (performHere id s e).2.results = s.results := results_perform_of_ne quiet ..
  have results' : (performHere id s' e).2.results = s'.results := results_perform_of_ne quiet ..
  have one : g.Settles done (id, e) (performHere id s e) :=
    settles_perform h.explains found split performed quiet _
  have other : g.Settles (left ∪ done) (id, e) (performHere id s' e) :=
    settles_perform h.together found split (fun b member => .inr (performed b member)) quiet _
  generalize performHere id s e = r at *
  generalize performHere id s' e = r' at *
  obtain ⟨outcome, u⟩ := r
  obtain ⟨outcome', u'⟩ := r'
  obtain rfl : outcome' = outcome := same
  cases one with
  | done ok explains =>
    cases other with
    | done _ together => exact alongside_goOn (h.advance explains together results results') _
    | refused failed => exact absurd (ok.symm.trans failed) (by simp)
  | refused failed explains =>
    obtain rfl : outcome' = _ := failed
    cases other with
    | done ok => simp at ok
    | refused _ together =>
      exact alongside_leave (h.stores explains together results results') (by simp)

theorem alongside_step (unrelated : g.Unrelated left root) (h : g.Alongside left root m m') :
    g.Alongside left root (g.step m) (g.step m') := by
  obtain ⟨_, s, _⟩ := m
  obtain ⟨stack, s', a⟩ := m'
  obtain ⟨rfl, rfl, done, beside⟩ := h
  match stack, a with
  | [], a => exact ⟨rfl, rfl, done, beside⟩
  | ⟨id, rest⟩ :: stack, some (callee, r) => exact alongside_goOn beside (taken id callee r)
  | ⟨id, []⟩ :: stack, none => exact alongside_leave beside fun _ _ => rfl
  | ⟨id, e :: rest⟩ :: stack, none =>
    obtain ⟨reach, before, split, -⟩ := beside.pending _ List.mem_cons_self
    have asked := mem_whole split
    rcases Classical.em (∃ callee, e = .enter callee) with ⟨callee, rfl⟩ | quiet
    · have counted : g.Beside left root (⟨id, rest⟩ :: stack) s s'
          (insert (id, .enter callee) done) := by
        refine beside.advance (beside.explains.typing asked rfl ?_)
          (beside.together.typing asked rfl ?_) rfl rfl
        · rw [factsOf_enter]
          exact beside.explains.describes
        · rw [factsOf_enter]
          exact beside.together.describes
      rw [step_enter, step_enter]
      by_cases inside : callee ∈ id :: stack.map Pending.script
      · rw [if_pos inside, if_pos inside]
        exact ⟨rfl, rfl, _, counted⟩
      · rw [if_neg inside, if_neg inside]
        exact alongside_ask counted (reach.tail ⟨_, asked, rfl⟩)
    · rw [step_here quiet, step_here quiet]
      exact alongside_perform unrelated beside quiet

theorem alongside_steps (unrelated : g.Unrelated left root) (n : Nat)
    (h : g.Alongside left root m m') : g.Alongside left root (g.step^[n] m) (g.step^[n] m') := by
  induction n with
  | zero => exact h
  | succ n ih =>
    rw [Function.iterate_succ_apply', Function.iterate_succ_apply']
    exact alongside_step unrelated ih

theorem iterate_idle {a : Option (Int32 × Except Failure Function)} {n : Nat}
    (leads : g.step^[n] m = ⟨[], s, a⟩) (k : Nat) : g.step^[n + k] m = ⟨[], s, a⟩ := by
  rw [Nat.add_comm, Function.iterate_add_apply, leads]
  exact Function.iterate_fixed rfl k

theorem beside_interpret (unrelated : g.Unrelated left root)
    (h : g.Beside left root [] s s' done) :
    (g.interpret root s').1 = (g.interpret root s).1 ∧
      ∃ done', g.Beside left root [] (g.interpret root s).2 (g.interpret root s').2 done' := by
  obtain ⟨n, first⟩ := leads_interpret g root s
  obtain ⟨k, second⟩ := leads_interpret g root s'
  have both := alongside_steps unrelated (n + k) (alongside_ask h .refl)
  rw [iterate_idle first, Nat.add_comm, iterate_idle second] at both
  obtain ⟨-, same, done', beside⟩ := both
  exact ⟨by simpa using same, done', beside⟩

variable {a b : Int32}

/-- A first run stays among the scripts that its script reaches. -/
theorem done_first (g : Setting) (a : Int32) : ∃ done,
    g.Beside ∅ a [] (g.interpret a .start).2 (g.interpret a .start).2 done := by
  have start : g.Beside ∅ a [] .start .start ∅ := by
    refine ⟨fun _ _ => rfl, ?_, by simp, explains_start g, ?_, by simp⟩
    · simp [Stores.start, IntMap.get?_empty]
    · rw [Set.union_empty]
      exact explains_start g
  have unrelated : g.Unrelated ∅ a := by
    rw [Unrelated, factsOf_empty]
    exact Facts.leaves_empty _
  exact (beside_interpret unrelated start).2

theorem untouched_of_unshared (first : g.Beside ∅ a [] s s left)
    (unshared : ∀ v, v.isGlobal → g.Names a (.ofVariable v) → ¬ g.Names b (.ofVariable v)) :
    g.Untouched b s.typings := by
  have absent : ∀ v, v.isGlobal → g.Names b (.ofVariable v) →
      s.typings.cell? (.ofVariable v) = none := by
    intro v global names
    by_contra known
    obtain ⟨i, cell⟩ := Option.ne_none_iff_exists'.1 known
    rw [cell?_eq_named names.isName] at cell
    have about := about_factsOf first.explains.within first.inside
    exact unshared v global (about.typed _ _ (first.explains.describes.typed_of_cell cell)) names
  constructor
  · intro v i global names cell
    simp [absent v global names] at cell
  · intro v w global _ names _ same
    simp [sameType, absent v global names] at same

theorem unrelated_of_untouched (apart : ∀ c, ¬ (g.Reach a c ∧ g.Reach b c))
    (first : g.Beside ∅ a [] s s left) (untouched : g.Untouched b s.typings) :
    g.Unrelated left b := by
  have describes := first.explains.describes
  refine (about_factsOf first.explains.within first.inside).leaves ?_ ?_
  · intro t namesT u namesU inT inU same
    obtain ⟨v, global, rfl⟩ := global_of_names apart inT namesT
    obtain ⟨w, global', rfl⟩ := global_of_names apart inU namesU
    cases cell : s.typings.named (.ofVariable v) with
    | none => exact (describes.eq_of_absent cell same).symm
    | some i =>
      obtain ⟨j, cell', root⟩ := describes.exists_cell cell same
      have one : s.typings.sameType (.ofVariable v) (.ofVariable w) := by
        rw [← cell?_eq_named rfl] at cell cell'
        simp [sameType, cell, cell', sameClass, root]
      rw [untouched.apart v w global global' namesT namesU one]
  · intro t namesT inT
    obtain ⟨v, global, rfl⟩ := global_of_names apart inT namesT
    cases cell : s.typings.named (.ofVariable v) with
    | none => exact describes.held_eq_empty cell
    | some i =>
      have form := describes.types _ i cell
      rw [untouched.untyped v i global namesT ((cell?_eq_named rfl).trans cell)] at form
      exact form.eq_empty

theorem typed_of_interpret {f : Function} (ok : (g.interpret a .start).1 = .ok f)
    (inside : t ∈ f.typeVars) :
    t.isName ∧ ((g.interpret a .start).2.typings.typeOf? t).isSome := by
  obtain ⟨done, -, explains, complete, -⟩ := advances_interpret a (explains_start g)
  exact typed_of_lifts explains (lifts_of_interpret .start ok)
    (fun e member => complete f ok ⟨rfl, member⟩) inside

theorem reach_of_alone {c : Int32} (alone : ∀ e ∈ g.effectsOf a, e.callee? = none)
    (reach : g.Reach a c) : c = a := by
  induction reach with
  | refl => rfl
  | tail _ refers ih =>
    obtain ⟨e, member, asks⟩ := refers
    simp [alone e (ih ▸ member)] at asks

theorem names_of_alone (alone : ∀ e ∈ g.effectsOf a, e.callee? = none) (names : g.Names a t) :
    t ∈ declared (g.effectsOf a) := by
  obtain ⟨script, reach, known⟩ := names
  exact reach_of_alone alone reach ▸ known

theorem apart_of_alone (alone : ∀ e ∈ g.effectsOf a, e.callee? = none)
    (alone' : ∀ e ∈ g.effectsOf b, e.callee? = none) (other : a ≠ b) (c : Int32) :
    ¬ (g.Reach a c ∧ g.Reach b c) := by
  rintro ⟨first, second⟩
  rw [reach_of_alone alone first] at second
  exact other (reach_of_alone alone' second)

/-- Two scripts that reach no script in common. Interpreting the first one, whether it fails or not,
    matters to the second one only through global variables: unless types are left on some that it
    names, or some are left in one class, it comes to the same function or failure as on its own,
    and whatever has a type then, as all in its code has, has the same type. If the two share no
    global variable, nothing is left on those that the second one names. -/
theorem unrelated_unaffected (g : Setting) (a b : Int32)
    (apart : ∀ c, ¬ (g.Reach a c ∧ g.Reach b c)) :
    (g.Untouched b (g.interpret a .start).2.typings →
      (g.interpret b (g.interpret a .start).2).1 = (g.interpret b .start).1 ∧
      (∀ t held, t.isName → (g.interpret b .start).2.typings.typeOf? t = some held →
        (g.interpret b (g.interpret a .start).2).2.typings.typeOf? t = some held) ∧
      ∀ f, (g.interpret b .start).1 = .ok f → ∀ t ∈ f.typeVars,
        t.isName ∧ ((g.interpret b .start).2.typings.typeOf? t).isSome) ∧
    ((∀ v, v.isGlobal → g.Names a (.ofVariable v) → ¬ g.Names b (.ofVariable v)) →
      g.Untouched b (g.interpret a .start).2.typings) := by
  obtain ⟨left, first⟩ := done_first g a
  refine ⟨fun untouched => ?_, untouched_of_unshared first⟩
  have unrelated := unrelated_of_untouched apart first untouched
  have start : g.Beside left b [] .start (g.interpret a .start).2 ∅ := by
    refine ⟨fun c reach => ?_, ?_, by simp, explains_start g, ?_, by simp⟩
    · cases kept : (g.interpret a .start).2.results.get? c with
      | none => rfl
      | some r => exact absurd ⟨first.kept c r kept, reach⟩ (apart c)
    · simp [Stores.start, IntMap.get?_empty]
    · rw [Set.union_empty]
      exact first.explains
  obtain ⟨same, done, beside⟩ := beside_interpret unrelated start
  refine ⟨same, fun t held name typed => ?_, fun f ok t inside => typed_of_interpret ok inside⟩
  have about := about_factsOf beside.explains.within beside.inside
  have fresh := beside.explains.describes
  have later := beside.together.describes
  rw [factsOf_union] at later
  rw [typeOf?, cell?_eq_named name] at typed ⊢
  obtain ⟨i, cell, rfl⟩ := Option.map_eq_some_iff.1 typed
  obtain ⟨j, cell', -⟩ := fresh.cell_of_within later (Facts.within_union_right _ _) cell
  rw [cell', Option.map_some, fresh.resolve_of_leaves unrelated about later cell cell']

end Setting

namespace Sample

/-- Script 0 takes a player variable for an object and then comes to an unknown opcode; script 1
    takes one for a coordinate. -/
def playerVar (global : Int32) : Setting :=
  .of ((IntMap.insert .empty 0 (.ofLines [.op .getVar (.int 3), .op .ocName (.int 0),
      .op .popStringDiscard (.int 0), .op 9999 (.int 0)])).insert 1
    (.ofLines [.op .getVar (.int global), .op .coordX (.int 0), .op .popIntDiscard (.int 0),
      .op .ret (.int 0)])) .none .default

theorem playerVar_unaffected : ((playerVar 4).interpret 0 .start).1.isOk = false ∧
    ((playerVar 4).interpret 1 .start).1.isOk ∧
    ((playerVar 4).interpret 1 ((playerVar 4).interpret 0 .start).2).1 =
      ((playerVar 4).interpret 1 .start).1 := by
  have first : ∀ e ∈ (playerVar 4).effectsOf 0, e.callee? = none := by decide +kernel
  have second : ∀ e ∈ (playerVar 4).effectsOf 1, e.callee? = none := by decide +kernel
  have unshared : ∀ t ∈ declared ((playerVar 4).effectsOf 0),
      t ∉ declared ((playerVar 4).effectsOf 1) := by
    decide +kernel
  obtain ⟨unaffected, untouched⟩ := Setting.unrelated_unaffected (playerVar 4) 0 1
    (Setting.apart_of_alone first second (by decide))
  have left := untouched fun v _ names names' =>
    unshared _ (Setting.names_of_alone first names) (Setting.names_of_alone second names')
  exact ⟨by decide +kernel, by decide +kernel, (unaffected left).1⟩

/-- The same variable: script 1 succeeds on its own, and fails after script 0 has failed. -/
theorem playerVar_differs : (∀ c, ¬ ((playerVar 3).Reach 0 c ∧ (playerVar 3).Reach 1 c)) ∧
    ((playerVar 3).interpret 0 .start).1.isOk = false ∧ ((playerVar 3).interpret 1 .start).1.isOk ∧
    ((playerVar 3).interpret 1 ((playerVar 3).interpret 0 .start).2).1.isOk = false := by
  have first : ∀ e ∈ (playerVar 3).effectsOf 0, e.callee? = none := by decide +kernel
  have second : ∀ e ∈ (playerVar 3).effectsOf 1, e.callee? = none := by decide +kernel
  exact ⟨Setting.apart_of_alone first second (by decide),
    by decide +kernel, by decide +kernel, by decide +kernel⟩

end Sample

end ClientScript
