import ClientScript.Proofs.Interpretation.Order
import ClientScript.Proofs.Lift.Portability

/-!
The same script in both revisions. What the legacy revision says of types is said by the current one
once nameless values are read, but for types that say nothing beyond their stacks. So it is free of
contradiction where the latter is. Main statement: if a portable script is interpreted in the
current revision, it is interpreted in the legacy one, with the same outlines.
-/
namespace ClientScript

open Typing

def Function.outlines (f : Function) : List Outline := f.code.instructions.map Instruction.outline

namespace Lift

variable {es es' : List Effect} {names : Readings}

/-- What a type variable is read as. -/
def reading (names : Readings) : TypeVar → Option TypeVar
  | .ofValue _ n => names[n]?.join
  | t => some t

theorem ReadAs.eq_reading {t : TypeVar} {x : Option TypeVar} (h : ReadAs names t x) :
    reading names t = x := by
  cases h with
  | ofValue script found => rw [reading, found, Option.join_some]
  | ofVariable | ofResult => rfl

theorem reads_of_backed (backed : ∀ e ∈ es', Backed (ground es) names e) :
    (factsOf {r | r.2 ∈ es'}).Reads (ground es) (reading names) := by
  constructor
  · rintro t stack ⟨⟨_, e⟩, asked, puts⟩
    cases backed e asked with
    | declare read typed =>
      obtain ⟨rfl, rfl⟩ := puts
      rwa [read.eq_reading]
    | results typed =>
      obtain ⟨slot, rfl, found⟩ := puts
      exact typed slot stack found
    | unify => exact puts.elim
  · rintro t u ⟨⟨_, e⟩, asked, joins⟩
    cases backed e asked with
    | declare | results => exact joins.elim
    | unify left right same =>
      obtain ⟨rfl, rfl⟩ := joins
      rwa [left.eq_reading, right.eq_reading]
  · rintro t p ⟨⟨_, e⟩, asked, pins⟩
    cases backed e asked with
    | declare read typed types =>
      obtain ⟨rfl, pin⟩ := pins
      rw [read.eq_reading]
      exact (types p pin).imp_right fun weak => ⟨_, typed, weak⟩
    | results | unify => exact pins.elim

theorem consistent_of_backed (backed : ∀ e ∈ es', Backed (ground es) names e)
    (consistent : (factsOf {r | r.2 ∈ es}).Consistent) : (factsOf {r | r.2 ∈ es'}).Consistent :=
  (consistent.withSpare .int).of_reads (reads_of_backed backed)

end Lift

open Lift in
theorem Context.relaxed_of_portable {ctx : Context} {f : Function} (portable : ctx.code.Portable)
    (lifted : (ctx.lift (.ofFormat .current)).result = .ok f) : ∃ names f',
      (ctx.lift (.ofFormat .legacy)).result = .ok f' ∧ f'.outlines = f.outlines ∧
      ∀ e ∈ (ctx.lift (.ofFormat .legacy)).effects,
        Backed (ground (ctx.lift (.ofFormat .current)).effects) names e := by
  rcases run : (Lift.function ctx (.ofFormat .current)).run.run Frame.start with ⟨result, F⟩
  rw [Context.lift, run] at lifted
  simp only at lifted
  subst lifted
  obtain ⟨names, f', F', -, made, mirrors, same⟩ :=
    tracks_function portable .start f F run [] .start List.prefix_rfl mirrors_start
  have legacy : ctx.lift (.ofFormat .legacy) = ⟨F'.effects, .ok f'⟩ := by
    rw [Context.lift, show _ = _ from made]
  refine ⟨names, f', by rw [legacy], same, ?_⟩
  rw [legacy, Context.lift, run]
  exact mirrors.backed

namespace Setting

variable {g : Setting} {done : Set Request} {s : Stores} {id : Int32} {code : Script}

theorem ok_performAll (found : g.scripts.get? id = some code)
    (consistent : (factsOf {r | r.2 ∈ g.effectsOf id}).Consistent)
    (quiet : ∀ e ∈ g.effectsOf id, ¬ ∃ callee, e = .enter callee)
    (enter : Int32 → Stores → Except Failure Unit × Stores) (rest before : List Effect)
    (split : g.effectsOf id = before ++ rest) (h : g.Explains done s)
    (performed : ∀ b ∈ before, (id, b) ∈ done) (own : ∀ r ∈ done, r.2 ∈ g.effectsOf id) :
    (s.performAll id enter rest).1 = .ok () := by
  induction rest generalizing before done s with
  | nil => rfl
  | cons e rest ih =>
    have asked : e ∈ g.effectsOf id := by simp [split]
    have mine : ∀ r ∈ insert (id, e) done, r.2 ∈ g.effectsOf id := by
      rintro r (rfl | old)
      · exact asked
      · exact own r old
    rcases result : s.perform id enter e with ⟨outcome, s'⟩
    have settles := settles_perform h found split performed (quiet e asked) enter
    rw [result] at settles
    cases settles with
    | done ok explains =>
      simp only at ok
      subst ok
      simp only [Stores.performAll, result]
      refine ih (before ++ [e]) (by simp [split]) explains (fun b member => ?_) mine
      rcases List.mem_append.1 member with old | new
      · exact .inr (performed b old)
      · exact .inl (by rw [List.mem_singleton.1 new])
    | refused failed explains clash => exact absurd (consistent.mono (factsOf_mono mine)) clash

theorem consistent_of_interpret {f : Function} (given : (g.interpret id .start).1 = .ok f) :
    (factsOf {r | r.2 ∈ g.effectsOf id}).Consistent := by
  obtain ⟨done, -, explains, complete, -⟩ := advances_interpret id (explains_start g)
  have did := complete f given
  apply explains.describes.consistent.mono
  constructor
  · rintro t stack ⟨r, asked, puts⟩
    exact ⟨(id, r.2), did ⟨rfl, asked⟩, puts⟩
  · rintro a b ⟨r, asked, joins⟩
    exact ⟨(id, r.2), did ⟨rfl, asked⟩, joins⟩
  · rintro t p ⟨r, asked, pins⟩
    exact ⟨(id, r.2), did ⟨rfl, asked⟩, pins⟩

theorem interpret_of_quiet (nests : 0 < g.config.maxCallDepth)
    (found : g.scripts.get? id = some code)
    (consistent : (factsOf {r | r.2 ∈ g.effectsOf id}).Consistent)
    (quiet : ∀ e ∈ g.effectsOf id, ¬ ∃ callee, e = .enter callee) :
    (g.interpret id .start).1 = ((g.context id code).lift g.table).result := by
  have fresh : Stores.start.results.get? id = none := by simp [Stores.start, IntMap.get?_empty]
  obtain ⟨depth, room⟩ := Nat.exists_eq_succ_of_ne_zero (Nat.ne_of_gt nests)
  simp only [interpret, room, interpretAt, fresh, found, runWith]
  have performed := ok_performAll found consistent quiet
    (enterWith (g.interpretAt depth) [id] id) (g.effectsOf id) [] rfl
    ((explains_start g).mention id) (List.forall_mem_nil _) fun _ none => none.elim
  rw [effectsOf_eq found] at performed
  rcases result : Stores.performAll _ _ _ _ with ⟨outcome, s'⟩
  rw [result] at performed
  simp only at performed
  rw [performed]

theorem nests_of_interpret {f : Function} (given : (g.interpret id .start).1 = .ok f) :
    0 < g.config.maxCallDepth := by
  by_contra none
  have fresh : Stores.start.results.get? id = Option.none := by
    simp [Stores.start, IntMap.get?_empty]
  rw [interpret, Nat.eq_zero_of_not_pos none, interpretAt, fresh] at given
  simp at given

/-- In whatever corpus, if the current revision interprets a portable script, the legacy revision
    does too, and their code has the same labels, kinds of instructions and targets, and writes and
    reads the same slots of the operand stack. A portable script calls none, so the limits on nested
    calls may differ, but for a legacy limit of zero, which lets no script in (`nests`); with one
    limit for both, `nests` is `id`. -/
theorem portable_relaxed (scripts : Corpus) (declarations : Declarations) (depth depth' : Nat)
    (check : Bool) (nests : 0 < depth → 0 < depth') {id : Int32} {code : Script} {f : Function}
    (found : scripts.get? id = some code) (portable : code.Portable)
    (given : ((of scripts declarations ⟨.current, depth, check⟩).interpret id .start).1 = .ok f) :
    ∃ f', ((of scripts declarations ⟨.legacy, depth', check⟩).interpret id .start).1 = .ok f' ∧
      f'.outlines = f.outlines := by
  obtain ⟨code', found', lifted⟩ := lifts_of_interpret .start given
  obtain rfl : code' = code := Option.some.inj (found'.symm.trans found)
  obtain ⟨names, f', lifted', same, backed⟩ := Context.relaxed_of_portable portable lifted
  have consistent := consistent_of_interpret given
  rw [effectsOf_eq found'] at consistent
  refine ⟨f', ?_, same⟩
  rw [interpret_of_quiet (nests (nests_of_interpret given)) found]
  · exact lifted'
  · rw [effectsOf_eq found]
    exact Lift.consistent_of_backed backed consistent
  · rw [effectsOf_eq found]
    rintro e asked ⟨callee, rfl⟩
    cases backed _ asked

end Setting

namespace Sample

open Script (ofLines)

/-- Stores its argument in an array, copies it from there to a player variable, reads that twice,
    and tells whether it is one. -/
def tally : Script :=
  ofLines [.arguments 1 0, .returns [.int], .pushInt 5, .op .defineArray (.int 105), .pushInt 0,
    .op .pushIntLocal (.int 0), .op .popArrayInt (.int 0), .pushInt 0, .op .pushArrayInt (.int 0),
    .op .setVar (.int 3), .op .getVar (.int 3), .op .popIntDiscard (.int 0), .op .getVar (.int 3),
    .pushInt 1, .jump .branchEquals 15, .pushInt 0, .op .ret (.int 0), .pushInt 1,
    .op .ret (.int 0)]

def tallying (format : Format) : Setting :=
  .of (IntMap.insert .empty 0 tally) .none ⟨format, 256, true⟩

/-- In the legacy revision too it compares two slots and jumps to its last constant. -/
theorem tallying_relaxed : tally.Portable ∧ ∃ f f',
    ((tallying .current).interpret 0 .start).1 = .ok f ∧
    ((tallying .legacy).interpret 0 .start).1 = .ok f' ∧ f'.outlines = f.outlines ∧
    f'.outlines[12]?.map (fun o => (o.shape.targets, o.reads.length)) = some ([15], 2) := by
  have portable : tally.Portable := by decide +kernel
  have compared : ((tallying .current).interpret 0 .start).1.toOption.map (fun f =>
      f.outlines[12]?.map fun o => (o.shape.targets, o.reads.length)) = some (some ([15], 2)) := by
    decide +kernel
  obtain ⟨f, given, shown⟩ := Setting.exists_of_interpret compared
  obtain ⟨f', given', same⟩ := Setting.portable_relaxed (IntMap.insert .empty 0 tally) .none 256
    256 true id (IntMap.get?_insert_self ..) portable given
  exact ⟨portable, f, f', given, given', same, same ▸ shown⟩

end Sample

end ClientScript
