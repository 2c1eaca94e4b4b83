import ClientScript.FunctionSet
import ClientScript.Proofs.Interpretation.Order

/-!
What a run comes to. A run is any sequence of turns, each of which interprets one script or all of
them. The function set of its stores has the functions and the failures that are kept, and all that
the script of a kept function asks for has been done.
-/
namespace ClientScript

namespace IntMap

variable {α β : Type}

theorem find_eq_none_of_lt {k : Int32} {es : List (Int32 × α)} (above : ∀ e ∈ es, k < e.1) :
    find k es = none := by
  induction es with
  | nil => rfl
  | cons e es ih =>
    have ne : k ≠ e.1 := Int32.ne_of_lt (above e (by simp))
    rw [find, if_neg ne, ih fun e' member => above e' (by simp [member])]

theorem get?_filterMap (f : α → Option β) (m : IntMap α) (k : Int32) :
    (m.filterMap f).get? k = (m.get? k).bind f := by
  obtain ⟨es, ascending⟩ := m
  simp only [get?, filterMap]
  induction es with
  | nil => rfl
  | cons e es ih =>
    obtain ⟨above, rest⟩ := List.pairwise_cons.1 ascending
    by_cases same : k = e.1
    · have later : find k es = none := find_eq_none_of_lt fun e' member => same ▸ above e' member
      have dropped := ih rest
      rw [later] at dropped
      cases value : f e.2 with
      | none => simpa [find, value, same] using same ▸ dropped
      | some b => simp [find, value, same]
    · cases value : f e.2 with
      | none => simpa [find, value, same] using ih rest
      | some b => simpa [find, value, same] using ih rest

end IntMap

namespace FunctionSet

variable {s : Stores} {id : Int32}

theorem functions_ofStores {f : Function} :
    (ofStores s).functions.get? id = some f ↔ s.results.get? id = some (.ok f) := by
  rw [ofStores, IntMap.get?_filterMap]
  cases s.results.get? id with
  | none => simp
  | some r => cases r <;> simp

theorem failures_ofStores {e : Failure} :
    (ofStores s).failures.get? id = some e ↔ s.results.get? id = some (.error e) := by
  rw [ofStores, IntMap.get?_filterMap]
  cases s.results.get? id with
  | none => simp
  | some r => cases r <;> simp

theorem mem_functions : id ∈ (ofStores s).functions.keys ↔
    ∃ f, s.results.get? id = some (.ok f) := by
  rw [IntMap.mem_keys_iff, Option.isSome_iff_exists]
  exact exists_congr fun f => functions_ofStores

theorem mem_failures : id ∈ (ofStores s).failures.keys ↔
    ∃ e, s.results.get? id = some (.error e) := by
  rw [IntMap.mem_keys_iff, Option.isSome_iff_exists]
  exact exists_congr fun e => failures_ofStores

theorem mem_either : id ∈ (ofStores s).functions.keys ∨ id ∈ (ofStores s).failures.keys ↔
    ∃ r, s.results.get? id = some r := by
  rw [mem_functions, mem_failures]
  constructor
  · rintro (⟨f, kept⟩ | ⟨e, kept⟩)
    · exact ⟨_, kept⟩
    · exact ⟨_, kept⟩
  · rintro ⟨f | e, kept⟩
    · exact .inr ⟨_, kept⟩
    · exact .inl ⟨_, kept⟩

theorem exists_of_test {set : FunctionSet} {n : Nat} {test : Nat × Instruction → Bool}
    (passes : (set.functions.get? id).any fun f => f.code.toList[n]?.any test) :
    ∃ f e, set.functions.get? id = some f ∧ e ∈ f.code.toList ∧ test e = true := by
  obtain ⟨f, kept, among⟩ := (Option.any_eq_true _ _).1 passes
  obtain ⟨e, at_n, holds⟩ := (Option.any_eq_true _ _).1 among
  exact ⟨f, e, kept, List.mem_of_getElem? at_n, holds⟩

end FunctionSet

inductive Turn where
  | one (script : Int32)
  | all

namespace Setting

variable {g : Setting} {s : Stores}

def take (g : Setting) (s : Stores) : Turn → Stores
  | .one script => (g.interpret script s).2
  | .all => g.interpretAll s

def run (g : Setting) (turns : List Turn) : Stores := turns.foldl g.take .start

theorem Reached.interpretAll (h : g.Reached s) : g.Reached (g.interpretAll s) := by
  unfold Setting.interpretAll
  induction g.scripts.keys generalizing s with
  | nil => exact h
  | cons id ids ih => exact ih (.interpret id h)

theorem Reached.take (h : g.Reached s) (turn : Turn) : g.Reached (g.take s turn) := by
  cases turn with
  | one script => exact .interpret script h
  | all => exact h.interpretAll

theorem reached_run (g : Setting) (turns : List Turn) : g.Reached (g.run turns) := by
  have later : ∀ s, g.Reached s → g.Reached (turns.foldl g.take s) := by
    induction turns with
    | nil => exact fun s h => h
    | cons turn turns ih => exact fun s h => ih _ (h.take turn)
  exact later _ .start

theorem Reached.explains (h : g.Reached s) : ∃ done, g.Explains done s := by
  induction h with
  | start => exact ⟨∅, explains_start g⟩
  | interpret script _ ih =>
    obtain ⟨done, explains⟩ := ih
    obtain ⟨done', -, explains', -, -⟩ := advances_interpret script explains
    exact ⟨done', explains'⟩

variable {done : Set Request} {id : Int32} {a b t : TypeVar}

theorem follows_of_done (did : ∀ e ∈ g.effectsOf id, (id, e) ∈ done) {e : Effect}
    (asked : e ∈ g.effectsOf id) : ∃ code before, Follows (g.context id code) before e ∧
      ∀ b ∈ before, (id, b) ∈ done := by
  obtain ⟨code, before, after, -, split, follows⟩ := follows_of_whole (r := (id, e)) asked
  refine ⟨code, before, follows, fun b member => did b ?_⟩
  rw [split]
  exact List.mem_append_left _ member

/-- Where all that a script asks for is done, what it unifies has cells in one class. -/
theorem Explains.unified (h : g.Explains done s) (did : ∀ e ∈ g.effectsOf id, (id, e) ∈ done)
    (asked : .unify a b ∈ g.effectsOf id) : (factsOf done).Same a b ∧
      (∃ i, s.typings.cell? a = some i ∧ s.typings.named a = some i) ∧
      ∃ j, s.typings.cell? b = some j ∧ s.typings.named b = some j := by
  obtain ⟨code, before, follows, performed⟩ := follows_of_done did asked
  cases follows with
  | unify left right =>
    exact ⟨.rel _ _ ⟨_, did _ asked, rfl, rfl⟩, h.cell performed left, h.cell performed right⟩

theorem Explains.sameType (h : g.Explains done s) (did : ∀ e ∈ g.effectsOf id, (id, e) ∈ done)
    (asked : .unify a b ∈ g.effectsOf id) : s.typings.sameType a b := by
  obtain ⟨same, ⟨i, cellA, namedA⟩, j, cellB, namedB⟩ := h.unified did asked
  have one := (h.describes.same_iff namedA namedB).1 same
  simp [Typings.sameType, cellA, cellB, Typings.sameClass, one]

/-- Where all that a script asks for is done, what it freezes has the type, unless that is the
    integer, which any other type on its stack narrows. -/
theorem Explains.frozen (h : g.Explains done s) (did : ∀ e ∈ g.effectsOf id, (id, e) ∈ done)
    {pin : ValueType} (asked : .freeze t pin ∈ g.effectsOf id) (other : pin ≠ .int) :
    ∃ i, s.typings.cell? t = some i ∧ pin ∈ s.typings.typesOf i := by
  obtain ⟨code, before, follows, performed⟩ := follows_of_done did asked
  cases follows with
  | freeze known pin =>
    obtain ⟨i, cell, named⟩ := h.cell performed known
    have pinned : (factsOf done).pinned t pin := ⟨_, did _ asked, rfl, rfl⟩
    refine ⟨i, cell, (h.describes.types t i named).mem_of_ne ?_ other⟩
    exact ⟨t, .refl _, pinned⟩

end Setting

end ClientScript
