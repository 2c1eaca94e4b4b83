import ClientScript.Graph.Search

/-!
Searches mark what ways lead to that pass no blocked node and no node marked before, and nothing
else.
-/
namespace ClientScript

namespace Marks

theorem isOpen_of_mark {m : Marks} {u v : Nat} (opened : (m.mark v).isOpen u) : m.isOpen u := by
  obtain ⟨inside, fresh⟩ := isOpen_iff.1 opened
  rw [size_mark] at inside
  exact isOpen_iff.2 ⟨inside, fun has => fresh (by simp [has_mark, has])⟩

theorem search_keeps (next : Nat → List Nat) (stop : Nat → Bool) (work : List Nat) (m : Marks)
    {v : Nat} (marked : m.has v) : (search next stop work m).has v := by
  fun_induction search next stop work m with
  | case1 m => exact marked
  | case2 u rest m opened ih => exact ih (by simp [has_mark, marked])
  | case3 u rest m shut ih => exact ih marked

theorem search_marks_work (next : Nat → List Nat) (stop : Nat → Bool) (work : List Nat)
    (m : Marks) {v : Nat} (member : v ∈ work) (inside : v < m.bits.size) :
    (search next stop work m).has v := by
  fun_induction search next stop work m with
  | case1 m => simp at member
  | case2 u rest m opened ih =>
    rcases List.mem_cons.1 member with rfl | later
    · exact search_keeps _ _ _ _ (by simp [has_mark, inside])
    · refine ih ?_ (by rwa [size_mark])
      split
      · exact later
      · exact List.mem_append_right _ later
  | case3 u rest m shut ih =>
    rcases List.mem_cons.1 member with rfl | later
    · refine search_keeps _ _ _ _ ?_
      simpa [isOpen_iff, inside] using shut
    · exact ih later inside

theorem search_closed (next : Nat → List Nat) (stop : Nat → Bool) (work : List Nat) (m : Marks)
    {u v : Nat} (marked : (search next stop work m).has u) (fresh : ¬ m.has u)
    (free : stop u = false) (edge : v ∈ next u) (inside : v < m.bits.size) :
    (search next stop work m).has v := by
  fun_induction search next stop work m with
  | case1 m => exact absurd marked fresh
  | case2 w rest m opened ih =>
    by_cases same : u = w
    · subst same
      refine search_marks_work _ _ _ _ ?_ (by rwa [size_mark])
      simp [free, edge]
    · exact ih marked (by simpa [has_mark, same] using fresh) (by rwa [size_mark])
  | case3 w rest m shut ih => exact ih marked fresh inside

/-- A search that stops nowhere marks what paths lead to from its work list that pass no node marked
    before. -/
theorem search_iff_walk (next : Nat → List Nat) (work : List Nat) (m : Marks)
    (room : ∀ u ∈ work, u < m.bits.size) (edges : ∀ u, ∀ v ∈ next u, v < m.bits.size) (v : Nat) :
    (search next (fun _ => false) work m).has v ↔
      m.has v ∨ ∃ u ∈ work, ∃ nodes, Walk next u v nodes ∧ ∀ x ∈ nodes, ¬ m.has x := by
  constructor
  · intro marked
    clear room edges
    fun_induction search next (fun _ => false) work m with
    | case1 m => exact .inl marked
    | case2 w rest m opened ih =>
      have fresh := (isOpen_iff.1 opened).2
      rcases ih marked with old | ⟨u, member, nodes, walk, avoids⟩
      · rcases has_of_has_mark old with old | rfl
        · exact .inl old
        · exact .inr ⟨v, List.mem_cons_self, [v], .one v, by simpa using fresh⟩
      · -- A path that avoids what is marked now avoided what was marked before.
        have older : ∀ x ∈ nodes, ¬ m.has x := fun x among has =>
          avoids x among (by simp [has_mark, has])
        have either : u ∈ next w ∨ u ∈ rest := by simpa using member
        rcases either with edge | later
        · refine .inr ⟨w, List.mem_cons_self, w :: nodes, .step edge walk, fun x among => ?_⟩
          rcases List.mem_cons.1 among with rfl | inner
          · exact fresh
          · exact older x inner
        · exact .inr ⟨u, List.mem_cons_of_mem _ later, nodes, walk, older⟩
    | case3 w rest m shut ih =>
      rcases ih marked with old | ⟨u, member, found⟩
      · exact .inl old
      · exact .inr ⟨u, List.mem_cons_of_mem _ member, found⟩
  · rintro (old | ⟨u, member, nodes, walk, avoids⟩)
    · exact search_keeps _ _ _ _ old
    · have start := search_marks_work next (fun _ => false) work m member (room u member)
      clear member
      induction walk with
      | one u => exact start
      | step edge _ ih =>
        exact ih (fun x among => avoids x (List.mem_cons_of_mem _ among))
          (search_closed _ _ _ _ start (avoids _ List.mem_cons_self) rfl edge (edges _ _ edge))

end Marks

namespace Digraph

/-- A way along edges on which only the last node may be blocked. -/
inductive Way (g : Digraph) (blocked : Nat → Bool) : Nat → Nat → Prop where
  | here (u : Nat) : Way g blocked u u
  | step {u v w : Nat} (free : blocked u = false) (edge : v ∈ g.next u)
      (rest : Way g blocked v w) : Way g blocked u w

variable {g : Digraph} {blocked : Nat → Bool}

theorem has_none (size v : Nat) : (Marks.none size).has v = false := by
  simp only [Marks.none, Marks.has, Array.getElem?_replicate]
  split <;> rfl

theorem size_none (size : Nat) : (Marks.none size).bits.size = size := by simp [Marks.none]

theorem reachable_onward {u v w : Nat} (way : g.Way blocked v w)
    (marked : (g.reachable u blocked).has v) : (g.reachable u blocked).has w := by
  induction way with
  | here v => exact marked
  | step free edge _ ih =>
    refine ih (Marks.search_closed _ _ _ _ marked (by simp [has_none]) free edge ?_)
    rw [size_none]
    exact (next_inside edge).2

theorem reachable_of_way {u v : Nat} (way : g.Way blocked u v) (inside : u < g.size) :
    (g.reachable u blocked).has v :=
  reachable_onward way (Marks.search_marks_work _ _ _ _ (by simp) (by rwa [size_none]))

theorem search_way (blocked : Nat → Bool) (work : List Nat) (m : Marks) {v : Nat}
    (marked : (Marks.search g.next blocked work m).has v) :
    m.has v ∨ ∃ u ∈ work, g.Way blocked u v := by
  fun_induction Marks.search g.next blocked work m with
  | case1 m => exact .inl marked
  | case2 w rest m opened ih =>
    rcases ih marked with old | ⟨u, member, way⟩
    · rcases Marks.has_of_has_mark old with old | rfl
      · exact .inl old
      · exact .inr ⟨v, List.mem_cons_self, .here v⟩
    · right
      cases free : blocked w with
      | true => exact ⟨u, List.mem_cons_of_mem _ (by simpa [free] using member), way⟩
      | false =>
        have either : u ∈ g.next w ∨ u ∈ rest := by simpa [free] using member
        rcases either with edge | later
        · exact ⟨w, List.mem_cons_self, .step free edge way⟩
        · exact ⟨u, List.mem_cons_of_mem _ later, way⟩
  | case3 w rest m shut ih =>
    rcases ih marked with old | ⟨u, member, way⟩
    · exact .inl old
    · exact .inr ⟨u, List.mem_cons_of_mem _ member, way⟩

/-- A search marks just what ways lead to. -/
theorem reachable_iff_way {u v : Nat} (inside : u < g.size) :
    (g.reachable u blocked).has v ↔ g.Way blocked u v := by
  constructor
  · intro marked
    rcases search_way blocked [u] (.none g.size) marked with old | ⟨w, member, way⟩
    · simp [has_none] at old
    · exact List.mem_singleton.1 member ▸ way
  · intro way
    exact reachable_of_way way inside

theorem way_iff_walk {u v : Nat} : g.Way blocked u v ↔
    ∃ nodes, Walk g.next u v nodes ∧ ∀ x ∈ nodes.dropLast, blocked x = false := by
  constructor
  · intro way
    induction way with
    | here u => exact ⟨[u], .one u, by simp⟩
    | @step u v w unblocked edge _ ih =>
      obtain ⟨nodes, walk, free⟩ := ih
      obtain ⟨rest, rfl⟩ := walk.starts
      refine ⟨u :: v :: rest, .step edge walk, fun x among => ?_⟩
      rcases List.mem_cons.1 among with rfl | later
      · exact unblocked
      · exact free x later
  · rintro ⟨nodes, walk, free⟩
    induction walk with
    | one u => exact .here u
    | @step u v w nodes edge rest ih =>
      obtain ⟨tail, rfl⟩ := rest.starts
      exact .step (free u List.mem_cons_self) edge
        (ih fun x among => free x (List.mem_cons_of_mem _ among))

theorem inside_of_reachable {u v : Nat} (marked : (g.reachable u blocked).has v) : u < g.size := by
  refine Nat.lt_of_not_le fun outside => ?_
  have shut : ¬ (Marks.none g.size).isOpen u := fun opened =>
    Nat.not_lt.2 outside (size_none g.size ▸ (Marks.isOpen_iff.1 opened).1)
  rw [reachable, Marks.search, dif_neg shut, Marks.search, has_none] at marked
  exact Bool.false_ne_true marked

end Digraph

end ClientScript
