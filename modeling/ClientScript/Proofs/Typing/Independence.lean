import ClientScript.Proofs.Typing.Facts

/-!
Facts that leave names alone: they hold no types for them and make no two of them one. What other
facts about these names say is the same with the first facts as without them. So a store that
describes all facts shows the same classes, stacks and types of the names as one that describes the
second facts alone.
-/
namespace ClientScript

namespace Typing.Facts

variable {κ : Type} {E F : Facts κ} {M N : Set κ} {x y : κ}

def union (E F : Facts κ) : Facts κ where
  typed x st := E.typed x st ∨ F.typed x st
  joined x y := E.joined x y ∨ F.joined x y
  pinned x t := E.pinned x t ∨ F.pinned x t

structure Leaves (E : Facts κ) (N : Set κ) : Prop where
  apart : ∀ x ∈ N, ∀ y ∈ N, E.Same x y → x = y
  untyped : ∀ x ∈ N, E.held x = ∅

/-- Nothing is said of anything but the names. -/
structure About (F : Facts κ) (N : Set κ) : Prop where
  typed : ∀ x st, F.typed x st → x ∈ N
  joined : ∀ x y, F.joined x y → x ∈ N ∧ y ∈ N
  pinned : ∀ x t, F.pinned x t → x ∈ N

theorem mem_iff_of_same {S : Set κ} (closed : ∀ x y, F.joined x y → (x ∈ S ↔ y ∈ S))
    (same : F.Same x y) : x ∈ S ↔ y ∈ S := by
  induction same with
  | rel x y pair => exact closed x y pair
  | refl x => exact Iff.rfl
  | symm x y _ ih => exact ih.symm
  | trans x y z _ _ first later => exact first.trans later

theorem About.same (about : F.About N) (same : F.Same x y) : x = y ∨ x ∈ N ∧ y ∈ N := by
  by_cases inside : x ∈ N
  · have closed : ∀ u v, F.joined u v → (u ∈ N ↔ v ∈ N) := fun u v pair =>
      iff_of_true (about.joined u v pair).1 (about.joined u v pair).2
    exact .inr ⟨inside, (mem_iff_of_same closed same).1 inside⟩
  · have closed : ∀ u v, F.joined u v → (u ∈ ({x} : Set κ) ↔ v ∈ ({x} : Set κ)) := by
      intro u v pair
      obtain ⟨hu, hv⟩ := about.joined u v pair
      exact iff_of_false (fun eq => inside (eq ▸ hu)) (fun eq => inside (eq ▸ hv))
    exact .inl ((mem_iff_of_same closed same).1 rfl).symm

theorem About.leaves (about : E.About M) (apart : ∀ x ∈ N, ∀ y ∈ N, x ∈ M → y ∈ M →
    E.Same x y → x = y) (untyped : ∀ x ∈ N, x ∈ M → E.held x = ∅) : E.Leaves N := by
  constructor
  · intro x hx y hy same
    rcases about.same same with eq | ⟨inX, inY⟩
    · exact eq
    · exact apart x hx y hy inX inY same
  · intro x hx
    by_cases inX : x ∈ M
    · exact untyped x hx inX
    · refine Set.eq_empty_of_forall_notMem fun t => ?_
      rintro ⟨y, same, pinned⟩
      have inY := about.pinned y t pinned
      rcases about.same same with rfl | ⟨inX', -⟩
      · exact inX inY
      · exact inX inX'

theorem leaves_empty (N : Set κ) : (empty : Facts κ).Leaves N := by
  have about : (empty : Facts κ).About ∅ :=
    ⟨fun _ _ no => no.elim, fun _ _ no => no.elim, fun _ _ no => no.elim⟩
  exact about.leaves (fun _ _ _ _ no => no.elim) fun _ _ no => no.elim

theorem within_union_right (E F : Facts κ) : F.Within (E.union F) :=
  ⟨fun _ _ => .inr, fun _ _ => .inr, fun _ _ => .inr⟩

section

variable (leaves : E.Leaves N) (about : F.About N)

include leaves about

/-- What is one with a name is one by the second facts with a name, which the first facts say it is
    one with. -/
theorem exists_of_same_union (hx : x ∈ N) (same : (E.union F).Same x y) :
    ∃ z ∈ N, F.Same x z ∧ E.Same z y := by
  have first : ∀ u v, E.Same u v →
      (∃ z ∈ N, F.Same x z ∧ E.Same z u) → ∃ z ∈ N, F.Same x z ∧ E.Same z v := by
    rintro u v one ⟨z, hz, toZ, fromZ⟩
    exact ⟨z, hz, toZ, fromZ.trans one⟩
  have second : ∀ u v, u ∈ N → v ∈ N → F.Same u v →
      (∃ z ∈ N, F.Same x z ∧ E.Same z u) → ∃ z ∈ N, F.Same x z ∧ E.Same z v := by
    rintro u v hu hv one ⟨z, hz, toZ, fromZ⟩
    -- The class of a name by the first facts has no other name.
    obtain rfl := leaves.apart z hz u hu fromZ
    exact ⟨v, hv, toZ.trans one, E.same_refl v⟩
  refine (mem_iff_of_same (S := {u | ∃ z ∈ N, F.Same x z ∧ E.Same z u}) ?_ same).1
    ⟨x, hx, F.same_refl x, E.same_refl x⟩
  rintro u v (pair | pair)
  · have one : E.Same u v := .rel u v pair
    exact ⟨first u v one, first v u one.symm⟩
  · obtain ⟨hu, hv⟩ := about.joined u v pair
    have one : F.Same u v := .rel u v pair
    exact ⟨second u v hu hv one, second v u hv hu one.symm⟩

theorem same_union (hx : x ∈ N) (hy : y ∈ N) : (E.union F).Same x y ↔ F.Same x y := by
  constructor
  · intro same
    obtain ⟨z, hz, first, later⟩ := exists_of_same_union leaves about hx same
    exact leaves.apart z hz y hy later ▸ first
  · exact (within_union_right E F).same

theorem held_union (hx : x ∈ N) : (E.union F).held x = F.held x := by
  ext t
  constructor
  · rintro ⟨y, same, pinned⟩
    obtain ⟨z, hz, first, later⟩ := exists_of_same_union leaves about hx same
    rcases pinned with typed | pinned
    · have none : t ∉ E.held z := leaves.untyped z hz ▸ Set.notMem_empty t
      exact absurd ⟨y, later, typed⟩ none
    · obtain rfl := leaves.apart z hz y (about.pinned y t pinned) later
      exact ⟨z, first, pinned⟩
  · exact fun held => (within_union_right E F).held x held

end

end Typing.Facts

namespace Typings

open Typing Facts

variable {κ : Type} {E F : Facts κ} {N : Set κ} {cell cell' : κ → Option Nat} {s s' : Typings}
  {x y : κ} {i j i' j' : Nat}

theorem Describes.cell_of_within (h : Describes F cell s) (h' : Describes E cell' s')
    (within : F.Within E) (hx : cell x = some i) :
    ∃ i', cell' x = some i' ∧ s'.stackOf i' = s.stackOf i :=
  (h'.typed x _).1 (within.typed x _ (h.typed_of_cell hx))

section

variable (leaves : E.Leaves N) (about : F.About N) (h : Describes F cell s)
  (h' : Describes (E.union F) cell' s')

include leaves about h h'

theorem Describes.sameClass_of_leaves (hx : cell x = some i) (hx' : cell' x = some i')
    (hy : cell y = some j) (hy' : cell' y = some j') :
    s'.sameClass i' j' = s.sameClass i j := by
  have inX := about.typed x _ (h.typed_of_cell hx)
  have inY := about.typed y _ (h.typed_of_cell hy)
  rw [Bool.eq_iff_iff, sameClass, sameClass, beq_iff_eq, beq_iff_eq, ← h.same_iff hx hy,
    ← h'.same_iff hx' hy', same_union leaves about inX inY]

theorem Describes.summary_of_leaves (hx : cell x = some i) (hx' : cell' x = some i') :
    s'.summary i' = s.summary i := by
  have inX := about.typed x _ (h.typed_of_cell hx)
  obtain ⟨k, known, stack⟩ := h.cell_of_within h' (within_union_right E F) hx
  obtain rfl : i' = k := Option.some.inj (hx'.symm.trans known)
  have form := h'.types x i' hx'
  rw [held_union leaves about inX] at form
  rw [summary, summary, stack, form.unique (h.types x i hx)]

theorem Describes.resolve_of_leaves (hx : cell x = some i) (hx' : cell' x = some i') :
    s'.resolve i' = s.resolve i := by
  have shown := h.summary_of_leaves leaves about h' hx hx'
  rw [summary, summary, Summary.mk.injEq] at shown
  rw [Typings.resolve, Typings.resolve, shown.1, shown.2]

end

end Typings

end ClientScript
