import ClientScript.Proofs.Typing.Facts

/-!
Weaker facts. Facts about some things may be read as facts about others. What is not contradictory
stays so if less is said of it, or if types are added that classes on their stacks have anyway.
-/
namespace ClientScript.Typing

theorem ValueType.eq_of_stack_string {t : ValueType} (onStack : t.stack = .string) :
    t = .string := by
  cases t <;> simp_all [ValueType.stack]

theorem StackType.stack_defaultType (st : StackType) : st.defaultType.stack = st := by
  cases st <;> rfl

namespace Facts

variable {κ κ' : Type}

def withSpare (F : Facts κ) (stack : StackType) : Facts (Option κ) where
  typed
    | some x, st => F.typed x st
    | none, st => st = stack
  joined
    | some x, some y => F.joined x y
    | _, _ => False
  pinned
    | some x, t => F.pinned x t
    | none, _ => False

variable {F : Facts κ} {stack : StackType}

theorem same_withSpare {a b : Option κ} (same : (F.withSpare stack).Same a b) :
    a = b ∨ ∃ x y, a = some x ∧ b = some y ∧ F.Same x y := by
  induction same with
  | rel a b joined =>
    cases a with
    | none => exact joined.elim
    | some x =>
      cases b with
      | none => exact joined.elim
      | some y => exact .inr ⟨x, y, rfl, rfl, .rel x y joined⟩
  | refl => exact .inl rfl
  | symm a b _ ih =>
    rcases ih with rfl | ⟨x, y, rfl, rfl, same⟩
    · exact .inl rfl
    · exact .inr ⟨y, x, rfl, rfl, same.symm⟩
  | trans a b c _ _ first later =>
    rcases first with rfl | ⟨x, y, rfl, rfl, xy⟩
    · exact later
    · rcases later with rfl | ⟨y', z, same, rfl, yz⟩
      · exact .inr ⟨x, y, rfl, rfl, xy⟩
      · obtain rfl := Option.some.inj same
        exact .inr ⟨x, z, rfl, rfl, xy.trans yz⟩

theorem held_withSpare {a : Option κ} {t : ValueType} (held : t ∈ (F.withSpare stack).held a) :
    ∃ x, a = some x ∧ t ∈ F.held x := by
  obtain ⟨b, same, pinned⟩ := held
  cases b with
  | none => exact pinned.elim
  | some y =>
    rcases same_withSpare same with rfl | ⟨x, y', rfl, here, xy⟩
    · exact ⟨y, rfl, y, .refl y, pinned⟩
    · obtain rfl := Option.some.inj here
      exact ⟨x, rfl, y, xy, pinned⟩

theorem Within.withSpare {G : Facts κ} (h : F.Within G) (stack : StackType) :
    (F.withSpare stack).Within (G.withSpare stack) := by
  constructor
  · intro a st typed
    cases a with
    | none => exact typed
    | some x => exact h.typed x st typed
  · intro a b joined
    cases a with
    | none => exact joined
    | some x =>
      cases b with
      | none => exact joined
      | some y => exact h.joined x y joined
  · intro a t pinned
    cases a with
    | none => exact pinned
    | some x => exact h.pinned x t pinned

theorem Consistent.withSpare (h : F.Consistent) (stack : StackType) :
    (F.withSpare stack).Consistent := by
  constructor
  · intro a b st st' same hx hy
    rcases same_withSpare same with rfl | ⟨x, y, rfl, rfl, xy⟩
    · cases a with
      | none => exact hx.trans hy.symm
      | some x => exact h.sameStack x x st st' (.refl x) hx hy
    · exact h.sameStack x y st st' xy hx hy
  · intro a st typed t inA
    obtain ⟨x, rfl, held⟩ := held_withSpare inA
    exact h.onStack x st typed t held
  · intro a t inA u inA' tNe uNe
    obtain ⟨x, rfl, held⟩ := held_withSpare inA
    obtain ⟨x', same, held'⟩ := held_withSpare inA'
    obtain rfl := Option.some.inj same
    exact h.acceptable x t held u held' tNe uNe

/-- Facts that are among others once things are read as other things, but for types that the stack
    of a thing gives it anyway. -/
structure Reads (G : Facts κ') (F : Facts κ) (φ : κ' → κ) : Prop where
  typed : ∀ a st, G.typed a st → F.typed (φ a) st
  joined : ∀ a b, G.joined a b → F.Same (φ a) (φ b)
  pinned : ∀ a t, G.pinned a t →
    t ∈ F.held (φ a) ∨ ∃ st, F.typed (φ a) st ∧ t = st.defaultType

variable {G : Facts κ'} {φ : κ' → κ} {a b : κ'}

theorem Reads.same (reads : G.Reads F φ) (same : G.Same a b) : F.Same (φ a) (φ b) := by
  induction same with
  | rel a b joined => exact reads.joined a b joined
  | refl => exact .refl _
  | symm _ _ _ ih => exact ih.symm
  | trans _ _ _ _ _ first later => exact first.trans later

theorem Reads.held (reads : G.Reads F φ) {t : ValueType} (held : t ∈ G.held a) :
    t ∈ F.held (φ a) ∨ ∃ y st, F.Same (φ a) y ∧ F.typed y st ∧ t = st.defaultType := by
  obtain ⟨b, same, pinned⟩ := held
  have related := reads.same same
  rcases reads.pinned b t pinned with old | ⟨st, typed, weak⟩
  · exact .inl (held_eq_of_same related ▸ old)
  · exact .inr ⟨φ b, st, related, typed, weak⟩

/-- The only type of the string stack clashes with nothing there, as plain integers do with
    nothing. -/
theorem Consistent.of_reads (h : F.Consistent) (reads : G.Reads F φ) : G.Consistent := by
  have onStack : ∀ {a t y st}, t ∈ G.held a → F.Same (φ a) y → F.typed y st → t.stack = st := by
    intro a t y st held same typed
    rcases reads.held held with old | ⟨z, st', same', typed', rfl⟩
    · exact h.onStack y st typed t (held_eq_of_same same ▸ old)
    · rw [StackType.stack_defaultType]
      exact h.sameStack z y st' st (same'.symm.trans same) typed' typed
  constructor
  · intro a b st st' same ha hb
    exact h.sameStack _ _ st st' (reads.same same) (reads.typed a st ha) (reads.typed b st' hb)
  · intro a st typed t held
    exact onStack held (.refl _) (reads.typed a st typed)
  · intro a t held u held' tNe uNe
    -- a type that is not held already is that of strings, and then so is the other
    have strings : ∀ {t u}, t ∈ G.held a → u ∈ G.held a → t ≠ .int → t ∉ F.held (φ a) →
        t = .string ∧ u = .string := by
      intro t u held held' ne new
      obtain ⟨y, st, same, typed, rfl⟩ := (reads.held held).resolve_left new
      cases st with
      | int => exact absurd rfl ne
      | string => exact ⟨rfl, ValueType.eq_of_stack_string (onStack held' same typed)⟩
    by_cases old : t ∈ F.held (φ a)
    · by_cases old' : u ∈ F.held (φ a)
      · exact h.acceptable (φ a) t old u old' tNe uNe
      · obtain ⟨rfl, rfl⟩ := strings held' held uNe old'
        rfl
    · obtain ⟨rfl, rfl⟩ := strings held held' tNe old
      rfl

end Facts

end ClientScript.Typing
