import ClientScript.Proofs.Typing.Narrowing
import ClientScript.Proofs.Typing.Store
import Mathlib.Logic.Relation

/-!
What is said about typed things, as facts without an order: the stack each was declared on, the
pairs that have one type, and the types that things were pinned to. A store describes facts if its
classes, stacks and types are those the facts determine. Declaring, merging and freezing go from a
store that describes facts to one that describes the facts and one more, and fail exactly if the
facts and one more are contradictory. So nothing but the set of facts matters to a store.
-/
namespace ClientScript

namespace Typing

@[ext]
structure Facts (κ : Type) where
  typed : κ → StackType → Prop
  joined : κ → κ → Prop
  pinned : κ → ValueType → Prop

namespace Facts

variable {κ : Type}

def empty : Facts κ := ⟨fun _ _ => False, fun _ _ => False, fun _ _ => False⟩

def Same (F : Facts κ) : κ → κ → Prop := Relation.EqvGen F.joined

def held (F : Facts κ) (x : κ) : Set ValueType := {t | ∃ y, F.Same x y ∧ F.pinned y t}

/-- All members of a class are on one stack, its types are on that stack, and they do not clash. -/
structure Consistent (F : Facts κ) : Prop where
  sameStack : ∀ x y st st', F.Same x y → F.typed x st → F.typed y st' → st = st'
  onStack : ∀ x st, F.typed x st → ∀ t ∈ F.held x, t.stack = st
  acceptable : ∀ x, Acceptable (F.held x)

structure Within (F G : Facts κ) : Prop where
  typed : ∀ x st, F.typed x st → G.typed x st
  joined : ∀ x y, F.joined x y → G.joined x y
  pinned : ∀ x t, F.pinned x t → G.pinned x t

def declare (F : Facts κ) (x : κ) (st : StackType) (types : List ValueType) : Facts κ where
  typed y st' := F.typed y st' ∨ y = x ∧ st' = st
  joined := F.joined
  pinned y t := F.pinned y t ∨ y = x ∧ t ∈ types

def join (F : Facts κ) (a b : κ) : Facts κ where
  typed := F.typed
  joined x y := F.joined x y ∨ x = a ∧ y = b
  pinned := F.pinned

def pin (F : Facts κ) (a : κ) (t : ValueType) : Facts κ where
  typed := F.typed
  joined := F.joined
  pinned x u := F.pinned x u ∨ x = a ∧ u = t

variable {F G H : Facts κ} {a b x y : κ}

theorem Within.refl (F : Facts κ) : F.Within F :=
  ⟨fun _ _ h => h, fun _ _ h => h, fun _ _ h => h⟩

theorem Within.same (h : F.Within G) (same : F.Same x y) : G.Same x y :=
  Relation.EqvGen.mono (fun x y => h.joined x y) x y same

theorem Within.held (h : F.Within G) (x : κ) : F.held x ⊆ G.held x := by
  rintro t ⟨y, same, pinned⟩
  exact ⟨y, h.same same, h.pinned y t pinned⟩

theorem Consistent.mono (h : G.Consistent) (within : F.Within G) : F.Consistent := by
  constructor
  · intro x y st st' same hx hy
    exact h.sameStack x y st st' (within.same same) (within.typed x st hx) (within.typed y st' hy)
  · intro x st typed t held
    exact h.onStack x st (within.typed x st typed) t (within.held x held)
  · intro x
    exact (h.acceptable x).mono (within.held x)

theorem same_refl (F : Facts κ) (x : κ) : F.Same x x := .refl x

theorem Same.symm (h : F.Same x y) : F.Same y x := Relation.EqvGen.symm _ _ h

theorem Same.trans {z : κ} (first : F.Same x y) (later : F.Same y z) : F.Same x z :=
  Relation.EqvGen.trans _ _ _ first later

theorem held_eq_of_same (h : F.Same x y) : F.held x = F.held y := by
  ext t
  constructor
  · rintro ⟨z, same, pinned⟩
    exact ⟨z, h.symm.trans same, pinned⟩
  · rintro ⟨z, same, pinned⟩
    exact ⟨z, h.trans same, pinned⟩

theorem within_join (F : Facts κ) (a b : κ) : F.Within (F.join a b) :=
  ⟨fun _ _ h => h, fun _ _ h => .inl h, fun _ _ h => h⟩

theorem within_pin (F : Facts κ) (a : κ) (t : ValueType) : F.Within (F.pin a t) :=
  ⟨fun _ _ h => h, fun _ _ h => h, fun _ _ h => .inl h⟩

theorem within_declare (F : Facts κ) (x : κ) (st : StackType) (types : List ValueType) :
    F.Within (F.declare x st types) :=
  ⟨fun _ _ h => .inl h, fun _ _ h => h, fun _ _ h => .inl h⟩

theorem same_join : (F.join a b).Same x y ↔
    F.Same x y ∨ (F.Same x a ∨ F.Same x b) ∧ (F.Same y a ∨ F.Same y b) := by
  constructor
  · intro h
    induction h with
    | rel x y pair =>
      rcases pair with old | ⟨rfl, rfl⟩
      · exact .inl (.rel x y old)
      · exact .inr ⟨.inl (F.same_refl x), .inr (F.same_refl y)⟩
    | refl x => exact .inl (F.same_refl x)
    | symm x y _ ih => exact ih.imp Same.symm And.symm
    | trans x y z _ _ first later =>
      rcases first with xy | ⟨hx, hy⟩
      · rcases later with yz | ⟨hy, hz⟩
        · exact .inl (xy.trans yz)
        · exact .inr ⟨hy.imp xy.trans xy.trans, hz⟩
      · rcases later with yz | ⟨-, hz⟩
        · exact .inr ⟨hx, hy.imp yz.symm.trans yz.symm.trans⟩
        · exact .inr ⟨hx, hz⟩
  · have le := F.within_join a b
    have ab : (F.join a b).Same a b := .rel a b (.inr ⟨rfl, rfl⟩)
    have toA : ∀ z, F.Same z a ∨ F.Same z b → (F.join a b).Same z a := by
      rintro z (za | zb)
      · exact le.same za
      · exact (le.same zb).trans ab.symm
    rintro (old | ⟨hx, hy⟩)
    · exact le.same old
    · exact (toA x hx).trans (toA y hy).symm

theorem held_join_of_mem (h : F.Same x a ∨ F.Same x b) :
    (F.join a b).held x = F.held a ∪ F.held b := by
  ext t
  constructor
  · rintro ⟨y, same, pinned⟩
    have inPair : F.Same y a ∨ F.Same y b := by
      rcases same_join.1 same with old | ⟨-, hy⟩
      · exact h.imp old.symm.trans old.symm.trans
      · exact hy
    exact inPair.imp (fun ya => ⟨y, ya.symm, pinned⟩) fun yb => ⟨y, yb.symm, pinned⟩
  · rintro (⟨y, same, pinned⟩ | ⟨y, same, pinned⟩)
    · exact ⟨y, same_join.2 (.inr ⟨h, .inl same.symm⟩), pinned⟩
    · exact ⟨y, same_join.2 (.inr ⟨h, .inr same.symm⟩), pinned⟩

theorem held_join_of_not_mem (h : ¬ (F.Same x a ∨ F.Same x b)) :
    (F.join a b).held x = F.held x := by
  ext t
  constructor
  · rintro ⟨y, same, pinned⟩
    rcases same_join.1 same with old | ⟨hx, -⟩
    · exact ⟨y, old, pinned⟩
    · exact absurd hx h
  · exact fun member => (F.within_join a b).held x member

theorem held_pin_of_same {t : ValueType} (h : F.Same x a) :
    (F.pin a t).held x = F.held a ∪ {t} := by
  ext u
  constructor
  · rintro ⟨y, same, old | ⟨rfl, rfl⟩⟩
    · exact .inl ⟨y, h.symm.trans same, old⟩
    · exact .inr rfl
  · rintro (⟨y, same, pinned⟩ | rfl)
    · exact ⟨y, h.trans same, .inl pinned⟩
    · exact ⟨a, h, .inr ⟨rfl, rfl⟩⟩

theorem held_pin_of_not_same {t : ValueType} (h : ¬ F.Same x a) :
    (F.pin a t).held x = F.held x := by
  ext u
  constructor
  · rintro ⟨y, same, old | ⟨rfl, rfl⟩⟩
    · exact ⟨y, same, old⟩
    · exact absurd same h
  · exact fun member => (F.within_pin a t).held x member

end Facts

end Typing

namespace Typings

open Typing

variable {κ : Type}

def place (cell : κ → Option Nat) (s : Typings) (x : κ) : κ ⊕ Nat :=
  match cell x with
  | some i => .inr (s.find i)
  | none => .inl x

theorem place_of_cell {cell : κ → Option Nat} {s : Typings} {x : κ} {i : Nat}
    (h : cell x = some i) : place cell s x = .inr (s.find i) := by
  rw [place, h]

theorem place_of_none {cell : κ → Option Nat} {s : Typings} {x : κ}
    (h : cell x = none) : place cell s x = .inl x := by
  rw [place, h]

structure Extended (cell cell' : κ → Option Nat) (a : κ) (n : Nat) : Prop where
  absent : cell a = none
  new : cell' a = some n
  old : ∀ x, x ≠ a → cell' x = cell x

namespace Extended

variable {cell cell' : κ → Option Nat} {a x : κ} {n k : Nat}

theorem keeps (more : Extended cell cell' a n) (had : cell x = some k) : cell' x = some k := by
  have ne : x ≠ a := by
    rintro rfl
    simp [more.absent] at had
  exact (more.old x ne).trans had

theorem cases (more : Extended cell cell' a n) (hx : cell' x = some k) :
    (x = a ∧ k = n) ∨ (x ≠ a ∧ cell x = some k) := by
  by_cases eq : x = a
  · subst eq
    exact .inl ⟨rfl, Option.some.inj (hx.symm.trans more.new)⟩
  · exact .inr ⟨eq, (more.old x eq).symm.trans hx⟩

end Extended

/-- The store shows what the facts determine, for the things that have cells, and there are facts
    about no others. -/
structure Describes (F : Facts κ) (cell : κ → Option Nat) (s : Typings) : Prop where
  inside : ∀ x i, cell x = some i → i < s.size
  typed : ∀ x st, F.typed x st ↔ ∃ i, cell x = some i ∧ s.stackOf i = st
  named : ∀ x t, F.pinned x t → (cell x).isSome
  classes : ∀ x y, F.Same x y ↔ place cell s x = place cell s y
  types : ∀ x i, cell x = some i → NormalForm (F.held x) (s.typesOf i)
  onStack : ∀ x i, cell x = some i → ∀ t ∈ F.held x, t.stack = s.stackOf i

section

variable {F : Facts κ} {cell : κ → Option Nat} {s s' : Typings} {x y a b : κ} {i j : Nat}

namespace Describes

theorem same_iff (h : Describes F cell s) (hx : cell x = some i) (hy : cell y = some j) :
    F.Same x y ↔ s.find i = s.find j := by
  rw [h.classes, place_of_cell hx, place_of_cell hy, Sum.inr.injEq]

/-- What shares a class with a thing that has a cell has a cell. -/
theorem exists_cell (h : Describes F cell s) (hx : cell x = some i) (same : F.Same x y) :
    ∃ j, cell y = some j ∧ s.find i = s.find j := by
  cases hy : cell y with
  | some j => exact ⟨j, rfl, (h.same_iff hx hy).1 same⟩
  | none =>
    have eq := (h.classes x y).1 same
    rw [place_of_cell hx, place_of_none hy] at eq
    simp at eq

theorem held_eq_empty (h : Describes F cell s) (hx : cell x = none) : F.held x = ∅ := by
  ext t
  constructor
  · rintro ⟨y, same, pinned⟩
    obtain ⟨j, hy⟩ := Option.isSome_iff_exists.1 (h.named y t pinned)
    obtain ⟨i, hx', -⟩ := h.exists_cell hy same.symm
    simp [hx] at hx'
  · exact fun no => no.elim

theorem typed_of_cell (h : Describes F cell s) (hx : cell x = some i) : F.typed x (s.stackOf i) :=
  (h.typed x _).2 ⟨i, hx, rfl⟩

theorem consistent (h : Describes F cell s) : F.Consistent := by
  constructor
  · intro x y st st' same hx hy
    obtain ⟨i, hi, rfl⟩ := (h.typed x st).1 hx
    obtain ⟨j, hj, rfl⟩ := (h.typed y st').1 hy
    exact stackOf_eq_of_find ((h.same_iff hi hj).1 same)
  · intro x st typed t held
    obtain ⟨i, hi, rfl⟩ := (h.typed x st).1 typed
    exact h.onStack x i hi t held
  · intro x
    cases hx : cell x with
    | none =>
      rw [h.held_eq_empty hx]
      exact fun t no => no.elim
    | some i => exact (h.types x i hx).acceptable

theorem of_alike (h : Describes F cell s) (alike : Alike s s') : Describes F cell s' := by
  have places : place cell s' = place cell s := by
    funext x
    simp only [place, alike.find]
  constructor
  · intro x i hx
    exact alike.size ▸ h.inside x i hx
  · simpa only [alike.stackOf] using h.typed
  · exact h.named
  · simpa only [places] using h.classes
  · simpa only [alike.typesOf] using h.types
  · simpa only [alike.stackOf] using h.onStack

theorem same_pair_iff (h : Describes F cell s) (ha : cell a = some i) (hb : cell b = some j)
    {k : Nat} (hx : cell x = some k) :
    (F.Same x a ∨ F.Same x b) ↔ (s.find k = s.find i ∨ s.find k = s.find j) := by
  rw [h.same_iff hx ha, h.same_iff hx hb]

theorem not_same_pair (h : Describes F cell s) (ha : cell a = some i) (hb : cell b = some j)
    (hx : cell x = none) : ¬ (F.Same x a ∨ F.Same x b) := by
  rintro (same | same)
  · obtain ⟨k, hx', -⟩ := h.exists_cell ha same.symm
    simp [hx] at hx'
  · obtain ⟨k, hx', -⟩ := h.exists_cell hb same.symm
    simp [hx] at hx'

theorem classes_joined (h : Describes F cell s) (ha : cell a = some i) (hb : cell b = some j)
    {types : List ValueType} (joined : Joined s s' i j types) (x y : κ) :
    (F.join a b).Same x y ↔ place cell s' x = place cell s' y := by
  rw [Facts.same_join]
  cases hx : cell x with
  | none =>
    simp only [h.not_same_pair ha hb hx, false_and, or_false]
    rw [h.classes, place_of_none hx, place_of_none hx]
    cases hy : cell y with
    | none => rw [place_of_none hy, place_of_none hy]
    | some l => simp [place_of_cell hy]
  | some k =>
    cases hy : cell y with
    | none =>
      simp only [h.not_same_pair ha hb hy, and_false, or_false]
      rw [h.classes]
      simp [place_of_cell hx, place_of_none hy]
    | some l =>
      rw [h.same_iff hx hy, h.same_pair_iff ha hb hx, h.same_pair_iff ha hb hy, place_of_cell hx,
        place_of_cell hy, Sum.inr.injEq, joined.find_eq_iff]

theorem join_of_joined (h : Describes F cell s) (ha : cell a = some i) (hb : cell b = some j)
    {types : List ValueType} (stack : s.stackOf i = s.stackOf j)
    (form : NormalForm (F.held a ∪ F.held b) types) (joined : Joined s s' i j types) :
    Describes (F.join a b) cell s' := by
  constructor
  · intro x k hx
    exact joined.size ▸ h.inside x k hx
  · simp only [joined.stackOf]
    exact h.typed
  · exact h.named
  · exact h.classes_joined ha hb joined
  · intro x k hx
    rw [joined.typesOf]
    split
    · rename_i inPair
      rw [Facts.held_join_of_mem ((h.same_pair_iff ha hb hx).2 inPair)]
      exact form
    · rename_i other
      rw [Facts.held_join_of_not_mem (mt (h.same_pair_iff ha hb hx).1 other)]
      exact h.types x k hx
  · intro x k hx t held
    rw [joined.stackOf]
    by_cases inPair : F.Same x a ∨ F.Same x b
    · rw [Facts.held_join_of_mem inPair] at held
      have same : s.stackOf k = s.stackOf i := by
        rcases (h.same_pair_iff ha hb hx).1 inPair with eq | eq
        · exact stackOf_eq_of_find eq
        · exact (stackOf_eq_of_find eq).trans stack.symm
      rw [same]
      rcases held with inA | inB
      · exact h.onStack a i ha t inA
      · exact (h.onStack b j hb t inB).trans stack.symm
    · rw [Facts.held_join_of_not_mem inPair] at held
      exact h.onStack x k hx t held

theorem pin_of_retyped (h : Describes F cell s) (ha : cell a = some i) {t : ValueType}
    {types : List ValueType} (stack : t.stack = s.stackOf i)
    (form : NormalForm (F.held a ∪ {t}) types) (retyped : Retyped s s' i types) :
    Describes (F.pin a t) cell s' := by
  have places : place cell s' = place cell s := by
    funext x
    simp only [place, retyped.find]
  constructor
  · intro x k hx
    exact retyped.size ▸ h.inside x k hx
  · simp only [retyped.stackOf]
    exact h.typed
  · rintro x u (old | ⟨rfl, -⟩)
    · exact h.named x u old
    · rw [ha]
      rfl
  · rw [places]
    exact h.classes
  · intro x k hx
    rw [retyped.typesOf]
    split
    · rename_i inClass
      rw [Facts.held_pin_of_same ((h.same_iff hx ha).2 inClass)]
      exact form
    · rename_i other
      rw [Facts.held_pin_of_not_same (mt (h.same_iff hx ha).1 other)]
      exact h.types x k hx
  · intro x k hx u held
    rw [retyped.stackOf]
    by_cases same : F.Same x a
    · rw [Facts.held_pin_of_same same] at held
      have eq := stackOf_eq_of_find ((h.same_iff hx ha).1 same)
      rw [eq]
      rcases held with old | rfl
      · exact h.onStack a i ha u old
      · exact stack
    · rw [Facts.held_pin_of_not_same same] at held
      exact h.onStack x k hx u held

theorem eq_of_absent (h : Describes F cell s) (absent : cell a = none) (same : F.Same a x) :
    x = a := by
  have eq := (h.classes a x).1 same
  rw [place_of_none absent] at eq
  cases hx : cell x with
  | none =>
    rw [place_of_none hx] at eq
    exact (Sum.inl.inj eq).symm
  | some k => simp [place_of_cell hx] at eq

theorem held_declare_self (h : Describes F cell s) (absent : cell a = none) (stack : StackType)
    (types : List ValueType) : (F.declare a stack types).held a = {t | t ∈ types} := by
  ext t
  constructor
  · rintro ⟨y, same, pinned | ⟨-, member⟩⟩
    · obtain rfl := h.eq_of_absent absent same
      have has := h.named y t pinned
      simp [absent] at has
    · exact member
  · exact fun member => ⟨a, .refl a, .inr ⟨rfl, member⟩⟩

theorem held_declare_of_ne (h : Describes F cell s) (absent : cell a = none) (ne : x ≠ a)
    (stack : StackType) (types : List ValueType) :
    (F.declare a stack types).held x = F.held x := by
  ext t
  constructor
  · rintro ⟨y, same, pinned | ⟨rfl, -⟩⟩
    · exact ⟨y, same, pinned⟩
    · exact absurd (h.eq_of_absent absent (Facts.Same.symm same)) ne
  · exact fun member => (F.within_declare a stack types).held x member

theorem classes_grown (h : Describes F cell s) {cell' : κ → Option Nat} {stack : StackType}
    {types : List ValueType} (more : Extended cell cell' a s.size)
    (grown : Grown s s' stack types) (x y : κ) :
    F.Same x y ↔ place cell' s' x = place cell' s' y := by
  have kept : ∀ z, z ≠ a → place cell' s' z = place cell s z := by
    intro z ne
    simp only [place, more.old z ne, grown.find]
  have apart : ∀ z, z ≠ a → place cell' s' z ≠ place cell' s' a := by
    intro z ne
    rw [kept z ne, place_of_cell more.new, grown.find, find_of_size_le (Nat.le_refl _)]
    cases hz : cell z with
    | none => simp [place_of_none hz]
    | some k =>
      rw [place_of_cell hz]
      exact fun eq => absurd (Sum.inr.inj eq) (Nat.ne_of_lt (find_lt (h.inside z k hz)))
  by_cases hx : x = a
  · subst hx
    by_cases hy : y = x
    · subst hy
      exact iff_of_true (.refl y) rfl
    · exact iff_of_false (fun same => hy (h.eq_of_absent more.absent same)) (apart y hy).symm
  · by_cases hy : y = a
    · subst hy
      exact iff_of_false (fun same => hx (h.eq_of_absent more.absent same.symm)) (apart x hx)
    · rw [kept x hx, kept y hy]
      exact h.classes x y

theorem declare_of_grown (h : Describes F cell s) {cell' : κ → Option Nat} {stack : StackType}
    {types : List ValueType} (more : Extended cell cell' a s.size)
    (form : NormalForm {t | t ∈ types} types) (onStack : ∀ t ∈ types, t.stack = stack)
    (grown : Grown s s' stack types) : Describes (F.declare a stack types) cell' s' := by
  constructor
  · intro x k hx
    rw [grown.size]
    rcases more.cases hx with ⟨-, rfl⟩ | ⟨-, had⟩
    · exact Nat.lt_succ_self _
    · exact Nat.lt_succ_of_lt (h.inside x k had)
  · intro x st
    constructor
    · rintro (typed | ⟨rfl, rfl⟩)
      · obtain ⟨k, had, rfl⟩ := (h.typed x st).1 typed
        exact ⟨k, more.keeps had, grown.stackOf k (h.inside x k had)⟩
      · exact ⟨s.size, more.new, grown.newStack⟩
    · rintro ⟨k, hx, rfl⟩
      rcases more.cases hx with ⟨rfl, rfl⟩ | ⟨-, had⟩
      · exact .inr ⟨rfl, grown.newStack⟩
      · rw [grown.stackOf k (h.inside x k had)]
        exact .inl (h.typed_of_cell had)
  · rintro x t (pinned | ⟨rfl, -⟩)
    · obtain ⟨k, had⟩ := Option.isSome_iff_exists.1 (h.named x t pinned)
      rw [more.keeps had]
      rfl
    · rw [more.new]
      rfl
  · exact h.classes_grown more grown
  · intro x k hx
    rcases more.cases hx with ⟨rfl, rfl⟩ | ⟨ne, had⟩
    · rw [h.held_declare_self more.absent, grown.newTypes]
      exact form
    · rw [h.held_declare_of_ne more.absent ne, grown.typesOf k (h.inside x k had)]
      exact h.types x k had
  · intro x k hx t held
    rcases more.cases hx with ⟨rfl, rfl⟩ | ⟨ne, had⟩
    · rw [h.held_declare_self more.absent] at held
      rw [grown.newStack]
      exact onStack t held
    · rw [h.held_declare_of_ne more.absent ne] at held
      rw [grown.stackOf k (h.inside x k had)]
      exact h.onStack x k had t held

end Describes

theorem describes_empty {cell : κ → Option Nat} (none : ∀ x, cell x = none) :
    Describes .empty cell .empty := by
  constructor
  · simp [none]
  · simp [none, Facts.empty]
  · intro x t no
    exact no.elim
  · intro x y
    rw [place_of_none (none x), place_of_none (none y), Sum.inl.injEq]
    constructor
    · intro same
      induction same with
      | rel _ _ no => exact no.elim
      | refl => rfl
      | symm _ _ _ ih => exact ih.symm
      | trans _ _ _ _ _ first later => exact first.trans later
    · rintro rfl
      exact .refl x
  · simp [none]
  · simp [none]

/-- Merging adds the pair to the facts, or fails because the facts with the pair contradict each
    other. -/
theorem Describes.merge (h : Describes F cell s) (ha : cell a = some i) (hb : cell b = some j) :
    ((s.merge i j).1 = .ok () ∧ Describes (F.join a b) cell (s.merge i j).2) ∨
      ((∃ c, (s.merge i j).1 = .error c) ∧ Describes F cell (s.merge i j).2 ∧
        ¬ (F.join a b).Consistent) := by
  have formA := h.types a i ha
  have formB := h.types b j hb
  rcases merge_cases (h.inside a i ha) (h.inside b j hb) with
    ⟨same, ok, alike⟩ | ⟨stack, types, fits, ok, joined⟩ | ⟨-, clash, failed, alike⟩
  · have heldEq := Facts.held_eq_of_same ((h.same_iff ha hb).2 same)
    refine .inl ⟨ok, h.join_of_joined ha hb (stackOf_eq_of_find same) ?_ (alike.joined same)⟩
    rw [← heldEq, Set.union_self]
    exact formA
  · refine .inl ⟨ok, h.join_of_joined ha hb stack ?_ joined⟩
    rcases narrow_gather formA formB with ⟨zs, result, form⟩ | ⟨none, -⟩
    · rw [result] at fits
      exact Option.some.inj fits ▸ form
    · simp [none] at fits
  · refine .inr ⟨⟨_, failed⟩, h.of_alike alike, fun consistent => ?_⟩
    have ab : (F.join a b).Same a b := .rel a b (.inr ⟨rfl, rfl⟩)
    rcases clash with stack | none
    · exact stack (consistent.sameStack a b _ _ ab (h.typed_of_cell ha) (h.typed_of_cell hb))
    · rcases narrow_gather formA formB with ⟨zs, result, -⟩ | ⟨-, clash⟩
      · simp [none] at result
      · have acceptable := consistent.acceptable a
        rw [Facts.held_join_of_mem (.inl (F.same_refl a))] at acceptable
        exact clash acceptable

theorem Describes.freeze (h : Describes F cell s) (ha : cell a = some i) (t : ValueType) :
    ((s.freeze i t).1 = .ok () ∧ Describes (F.pin a t) cell (s.freeze i t).2) ∨
      ((∃ c, (s.freeze i t).1 = .error c) ∧ Describes F cell (s.freeze i t).2 ∧
        ¬ (F.pin a t).Consistent) := by
  have form := h.types a i ha
  have heldA : (F.pin a t).held a = F.held a ∪ {t} := Facts.held_pin_of_same (F.same_refl a)
  rcases freeze_cases (h.inside a i ha) t with
    ⟨stack, known, ok, alike⟩ | ⟨stack, new, types, fits, ok, retyped⟩ | ⟨clash, failed, alike⟩
  · refine .inl ⟨ok, h.pin_of_retyped ha stack.symm ?_ (alike.retyped i)⟩
    rw [Set.union_eq_self_of_subset_right]
    · exact form
    · exact Set.singleton_subset_iff.2 (form.mem_of_mem known)
  · refine .inl ⟨ok, h.pin_of_retyped ha stack.symm ?_ retyped⟩
    rcases narrow_gather form (normalForm_one t) with ⟨zs, result, form⟩ | ⟨none, -⟩
    · rw [gather_one new, fits] at result
      exact Option.some.inj result ▸ form
    · simp [gather_one new, fits] at none
  · refine .inr ⟨⟨_, failed⟩, h.of_alike alike, fun consistent => ?_⟩
    rcases clash with stack | ⟨new, none⟩
    · have onStack := consistent.onStack a _ (h.typed_of_cell ha) t (heldA ▸ .inr rfl)
      exact stack onStack.symm
    · rcases narrow_gather form (normalForm_one t) with ⟨zs, result, -⟩ | ⟨-, clash⟩
      · simp [gather_one new, none] at result
      · exact clash (heldA ▸ consistent.acceptable a)

end

section

variable {F : Facts κ} {cell cell' : κ → Option Nat} {s s' : Typings} {x y : κ} {i j i' j' : Nat}

theorem Describes.same_classes (h : Describes F cell s) (h' : Describes F cell' s')
    (hx : cell x = some i) (hx' : cell' x = some i') (hy : cell y = some j)
    (hy' : cell' y = some j') : s.sameClass i j = s'.sameClass i' j' := by
  rw [Bool.eq_iff_iff, sameClass, sameClass, beq_iff_eq, beq_iff_eq, ← h.same_iff hx hy,
    ← h'.same_iff hx' hy']

theorem Describes.same_stack (h : Describes F cell s) (h' : Describes F cell' s')
    (hx : cell x = some i) (hx' : cell' x = some i') : s.stackOf i = s'.stackOf i' := by
  obtain ⟨k, cell, stack⟩ := (h'.typed x _).1 (h.typed_of_cell hx)
  obtain rfl : i' = k := Option.some.inj (hx'.symm.trans cell)
  exact stack.symm

theorem Describes.same_types (h : Describes F cell s) (h' : Describes F cell' s')
    (hx : cell x = some i) (hx' : cell' x = some i') : s.typesOf i = s'.typesOf i' :=
  (h.types x i hx).unique (h'.types x i' hx')

end

end Typings

end ClientScript
