import ClientScript.Graph.Numbering
import ClientScript.Proofs.Graph.Search
import Mathlib.Data.List.Permutation
import Mathlib.Tactic.Tauto

/-!
The search with a work list and the recursive one leave the same nodes in the same order. Main
statement: from a start they leave every node that can be reached, each once, and where an edge
leads the node is left before, unless it leads back.
-/
namespace ClientScript.Adjacency

section

variable {next : Nat → List Nat} {seen seen' : Marks} {us vs : List Nat} {rest : List Visit}
  {u v : Nat}

/-- Visit the nodes of a list one after the other: the order in which nodes are left, and what has
    been seen in the end. To visit a node that is open is to visit its successors in edge order and
    then to leave it. -/
def visitAll (next : Nat → List Nat) : List Nat → (seen : Marks) →
    {r : List Nat × Marks // r.2.openCount ≤ seen.openCount}
  | [], seen => ⟨([], seen), Nat.le_refl _⟩
  | v :: vs, seen =>
    if opened : seen.isOpen v then
      let inner := visitAll next (next v) (seen.mark v)
      have less : inner.1.2.openCount < seen.openCount :=
        Nat.lt_of_le_of_lt inner.2 (Marks.openCount_mark_lt opened)
      let later := visitAll next vs inner.1.2
      ⟨(inner.1.1 ++ v :: later.1.1, later.1.2), Nat.le_trans later.2 (Nat.le_of_lt less)⟩
    else visitAll next vs seen
termination_by vs seen => (seen.openCount, vs.length)
decreasing_by
  · exact .left _ _ (Marks.openCount_mark_lt opened)
  · exact .left _ _ less
  · exact .right _ (by simp)

def leftFrom (next : Nat → List Nat) (vs : List Nat) (seen : Marks) : List Nat :=
  (visitAll next vs seen).1.1

def seenFrom (next : Nat → List Nat) (vs : List Nat) (seen : Marks) : Marks :=
  (visitAll next vs seen).1.2

theorem leftFrom_nil : leftFrom next [] seen = [] := by
  rw [leftFrom, visitAll]

theorem seenFrom_nil : seenFrom next [] seen = seen := by
  rw [seenFrom, visitAll]

theorem leftFrom_open (opened : seen.isOpen v) : leftFrom next (v :: vs) seen =
    leftFrom next (next v) (seen.mark v) ++
      v :: leftFrom next vs (seenFrom next (next v) (seen.mark v)) := by
  rw [leftFrom, visitAll, dif_pos opened]
  rfl

theorem seenFrom_open (opened : seen.isOpen v) : seenFrom next (v :: vs) seen =
    seenFrom next vs (seenFrom next (next v) (seen.mark v)) := by
  rw [seenFrom, visitAll, dif_pos opened]
  rfl

theorem leftFrom_shut (shut : ¬ seen.isOpen v) :
    leftFrom next (v :: vs) seen = leftFrom next vs seen := by
  rw [leftFrom, visitAll, dif_neg shut]
  rfl

theorem seenFrom_shut (shut : ¬ seen.isOpen v) :
    seenFrom next (v :: vs) seen = seenFrom next vs seen := by
  rw [seenFrom, visitAll, dif_neg shut]
  rfl

theorem visit_induction (next : Nat → List Nat) {P : List Nat → Marks → Prop}
    (nil : ∀ seen, P [] seen)
    (opened : ∀ v vs seen, seen.isOpen v → P (next v) (seen.mark v) →
      P vs (seenFrom next (next v) (seen.mark v)) → P (v :: vs) seen)
    (shut : ∀ v vs seen, ¬ seen.isOpen v → P vs seen → P (v :: vs) seen)
    (vs : List Nat) (seen : Marks) : P vs seen := by
  induction vs, seen using visitAll.induct next with
  | case1 seen => exact nil seen
  | case2 v vs seen isOpen inner less ihInner ihLater =>
    exact opened v vs seen isOpen ihInner ihLater
  | case3 v vs seen isShut ih => exact shut v vs seen isShut ih

theorem postorderFrom_enter (us : List Nat) (rest : List Visit) (seen : Marks) :
    postorderFrom next (us.map .enter ++ rest) seen =
      leftFrom next us seen ++ postorderFrom next rest (seenFrom next us seen) := by
  induction us, seen using visit_induction next generalizing rest with
  | nil seen => rw [leftFrom_nil, seenFrom_nil]; rfl
  | opened v vs seen opened ihInner ihLater =>
    rw [List.map_cons, List.cons_append, postorderFrom, dif_pos opened, ihInner, postorderFrom,
      ihLater, leftFrom_open opened, seenFrom_open opened]
    simp
  | shut v vs seen shut ih =>
    rw [List.map_cons, List.cons_append, postorderFrom, dif_neg shut, ih, leftFrom_shut shut,
      seenFrom_shut shut]

theorem postorder_eq (g : Adjacency) (start : Nat) :
    g.postorder start = leftFrom g.next [start] (.none g.size) := by
  have visited := @postorderFrom_enter g.next [start] [] (.none g.size)
  rwa [List.append_nil, postorderFrom, List.append_nil] at visited

/-- The search whose work list is spared the successors that have been seen when their predecessor
    is entered. -/
def sparedFrom (next : Nat → List Nat) : List Visit → Marks → List Nat
  | [], _ => []
  | .leave v :: rest, seen => v :: sparedFrom next rest seen
  | .enter v :: rest, seen =>
    if opened : seen.isOpen v then
      sparedFrom next (((next v).filter (seen.mark v).isOpen).map .enter ++ .leave v :: rest)
        (seen.mark v)
    else sparedFrom next rest seen
termination_by work seen => (seen.openCount, work.length)
decreasing_by
  · exact .right _ (by simp)
  · exact .left _ _ (Marks.openCount_mark_lt opened)
  · exact .right _ (by simp)

theorem has_seenFrom : (seenFrom next vs seen).has u ↔ seen.has u ∨ u ∈ leftFrom next vs seen := by
  induction vs, seen using visit_induction next with
  | nil seen => simp [seenFrom_nil, leftFrom_nil]
  | opened v vs seen opened ihInner ihLater =>
    have inside := (Marks.isOpen_iff.1 opened).1
    rw [seenFrom_open opened, leftFrom_open opened, ihLater, ihInner, Marks.has_mark]
    simp [inside]
    tauto
  | shut v vs seen shut ih => rw [seenFrom_shut shut, leftFrom_shut shut, ih]

theorem size_seenFrom : (seenFrom next vs seen).bits.size = seen.bits.size := by
  induction vs, seen using visit_induction next with
  | nil seen => rw [seenFrom_nil]
  | opened v vs seen opened ihInner ihLater =>
    rw [seenFrom_open opened, ihLater, ihInner, Marks.size_mark]
  | shut v vs seen shut ih => rw [seenFrom_shut shut, ih]

theorem isOpen_of_seenFrom (opened : (seenFrom next vs seen).isOpen u) : seen.isOpen u := by
  obtain ⟨inside, fresh⟩ := Marks.isOpen_iff.1 opened
  rw [size_seenFrom] at inside
  exact Marks.isOpen_iff.2 ⟨inside, fun has => fresh (has_seenFrom.2 (.inl has))⟩

theorem visit_filter (sooner : ∀ u, seen.isOpen u → seen'.isOpen u) :
    leftFrom next (vs.filter seen'.isOpen) seen = leftFrom next vs seen ∧
      seenFrom next (vs.filter seen'.isOpen) seen = seenFrom next vs seen := by
  induction vs generalizing seen with
  | nil => exact ⟨rfl, rfl⟩
  | cons v vs ih =>
    by_cases opened : seen.isOpen v
    · have later := @ih (seenFrom next (next v) (seen.mark v)) fun u still =>
        sooner u (Marks.isOpen_of_mark (isOpen_of_seenFrom still))
      rw [List.filter_cons, if_pos (sooner v opened), leftFrom_open opened, leftFrom_open opened,
        seenFrom_open opened, seenFrom_open opened, later.1, later.2]
      exact ⟨rfl, rfl⟩
    · rw [leftFrom_shut opened, seenFrom_shut opened, List.filter_cons]
      split
      · rw [leftFrom_shut opened, seenFrom_shut opened]
        exact ih sooner
      · exact ih sooner

theorem sparedFrom_eq (next : Nat → List Nat) (work : List Visit) (seen : Marks) :
    sparedFrom next work seen = postorderFrom next work seen := by
  fun_induction sparedFrom next work seen with
  | case1 seen => rw [postorderFrom]
  | case2 v rest seen ih => rw [postorderFrom, ih]
  | case3 v rest seen opened ih =>
    obtain ⟨left, marks⟩ := @visit_filter next (seen.mark v) (seen.mark v) (next v)
      fun _ still => still
    rw [ih, postorderFrom, dif_pos opened, postorderFrom_enter, postorderFrom_enter, left, marks]
  | case4 v rest seen shut ih => rw [ih, postorderFrom, dif_neg shut]

end

section

variable {g : Adjacency} {seen : Marks} {vs : List Nat} {start u v : Nat}

theorem reaches_of_mem_leftFrom (left : u ∈ leftFrom g.next vs seen) :
    ∃ v ∈ vs, g.Reaches v u := by
  induction vs, seen using visit_induction g.next with
  | nil seen => simp [leftFrom_nil] at left
  | opened v vs seen opened ihInner ihLater =>
    rw [leftFrom_open opened] at left
    rcases List.mem_append.1 left with inner | left
    · obtain ⟨w, edge, reaches⟩ := ihInner inner
      exact ⟨v, List.mem_cons_self, (Reaches.edge edge).trans reaches⟩
    · rcases List.mem_cons.1 left with rfl | later
      · exact ⟨u, List.mem_cons_self, .refl g u⟩
      · obtain ⟨w, among, reaches⟩ := ihLater later
        exact ⟨w, List.mem_cons_of_mem _ among, reaches⟩
  | shut v vs seen shut ih =>
    rw [leftFrom_shut shut] at left
    obtain ⟨w, among, reaches⟩ := ih left
    exact ⟨w, List.mem_cons_of_mem _ among, reaches⟩

theorem has_seenFrom_of_mem (among : v ∈ vs) (inside : v < seen.bits.size) :
    (seenFrom g.next vs seen).has v := by
  induction vs, seen using visit_induction g.next with
  | nil seen => simp at among
  | opened w vs seen opened ihInner ihLater =>
    rcases List.mem_cons.1 among with rfl | later
    · refine has_seenFrom.2 (.inr ?_)
      rw [leftFrom_open opened]
      simp
    · rw [seenFrom_open opened]
      exact ihLater later (by rwa [size_seenFrom, Marks.size_mark])
  | shut w vs seen shut ih =>
    rw [seenFrom_shut shut]
    rcases List.mem_cons.1 among with rfl | later
    · exact has_seenFrom.2 (.inl (by simpa [Marks.isOpen_iff, inside] using shut))
    · exact ih later inside

/-- Where an edge leads from a node that is left: to one that is left before, to one that leads
    back, or to one that had been seen. -/
theorem before_or_back (size : seen.bits.size = g.size) (left : u ∈ leftFrom g.next vs seen)
    (edge : v ∈ g.next u) :
    [v, u].Sublist (leftFrom g.next vs seen) ∨ g.Reaches v u ∨ seen.has v := by
  have inside := (g.inside u v edge).2
  induction vs, seen using visit_induction g.next with
  | nil seen => simp [leftFrom_nil] at left
  | opened w vs seen opened ihInner ihLater =>
    rw [leftFrom_open opened] at left ⊢
    rcases List.mem_append.1 left with inner | left
    · rcases ihInner (by rwa [Marks.size_mark]) inner with before | back | has
      · exact .inl (before.trans (List.sublist_append_left ..))
      · exact .inr (.inl back)
      · rcases (Marks.has_of_has_mark has).symm with rfl | old
        · obtain ⟨x, first, reaches⟩ := reaches_of_mem_leftFrom inner
          exact .inr (.inl ((Reaches.edge first).trans reaches))
        · exact .inr (.inr old)
    · rcases List.mem_cons.1 left with rfl | later
      · -- the node itself: its successors have all been visited
        have has := @has_seenFrom_of_mem g (seen.mark u) (g.next u) v edge
          (by rwa [Marks.size_mark, size])
        rcases has_seenFrom.1 has with has | inner
        · rcases (Marks.has_of_has_mark has).symm with rfl | old
          · exact .inr (.inl (.refl g v))
          · exact .inr (.inr old)
        · exact .inl
            ((List.singleton_sublist.2 inner).append (List.singleton_sublist.2 List.mem_cons_self))
      · rcases ihLater (by rwa [size_seenFrom, Marks.size_mark]) later with before | back | has
        · refine .inl (before.trans ?_)
          exact (List.sublist_cons_self ..).trans (List.sublist_append_right ..)
        · exact .inr (.inl back)
        · have behind : u ∈ w :: leftFrom g.next vs (seenFrom g.next (g.next w) (seen.mark w)) :=
            List.mem_cons_of_mem _ later
          rcases has_seenFrom.1 has with has | inner
          · rcases (Marks.has_of_has_mark has).symm with rfl | old
            · have pair := (List.singleton_sublist.2 later).cons_cons v
              exact .inl (pair.trans (List.sublist_append_right ..))
            · exact .inr (.inr old)
          · exact .inl
              ((List.singleton_sublist.2 inner).append (List.singleton_sublist.2 behind))
  | shut w vs seen shut ih =>
    rw [leftFrom_shut shut] at left ⊢
    exact ih size left

theorem mem_postorder_of_reaches (inside : start < g.size) (reaches : g.Reaches start v) :
    v ∈ g.postorder start :=
  reaches.closed (start_mem_postorder inside) fun _ member _ edge =>
    mem_postorder_of_edge member edge

/-- The search with a work list leaves the nodes in the order of the recursive one, whether or not
    its work list holds successors that have been seen: every node that the start reaches, each
    once, and where an edge leads before the node that it leads from, unless it leads back. -/
theorem postorder_depthFirst (inside : start < g.size) :
    g.postorder start = leftFrom g.next [start] (.none g.size) ∧
    g.postorder start = sparedFrom g.next [.enter start] (.none g.size) ∧
    (g.postorder start).Nodup ∧
    (∀ v, v ∈ g.postorder start ↔ g.Reaches start v) ∧
    ∀ u v, g.Reaches start u → v ∈ g.next u → ¬ g.Reaches v u →
      [v, u].Sublist (g.postorder start) := by
  refine ⟨postorder_eq g start, (sparedFrom_eq ..).symm, nodup_postorder g start, ?_, ?_⟩
  · intro v
    refine ⟨fun member => ?_, mem_postorder_of_reaches inside⟩
    rw [postorder_eq] at member
    obtain ⟨u, among, reaches⟩ := reaches_of_mem_leftFrom member
    exact List.mem_singleton.1 among ▸ reaches
  · intro u v reached edge away
    have left := mem_postorder_of_reaches inside reached
    rw [postorder_eq] at left ⊢
    rcases before_or_back (Digraph.size_none _) left edge with before | back | has
    · exact before
    · exact absurd back away
    · simp [Digraph.has_none] at has

end

end ClientScript.Adjacency

namespace ClientScript.Sample

/-- Nodes 1 and 3 lead back and forth, node 2 to itself, and node 4 leads to the start, but nothing
    leads to it. -/
def returning : Digraph :=
  .ofEdges 6 [(0, 1), (0, 2), (1, 3), (2, 3), (2, 2), (3, 1), (3, 5), (4, 0)]

/-- Node 3 is left before node 2, that leads to it, and before node 1, to which it leads back. -/
theorem returning_left : 0 < returning.size ∧
    returning.adjacency.postorder 0 = [5, 3, 1, 2, 0] ∧
    Adjacency.leftFrom returning.adjacency.next [0] (.none 6) = [5, 3, 1, 2, 0] ∧
    ¬ returning.adjacency.Reaches 0 4 ∧ returning.adjacency.Reaches 0 2 ∧
    ¬ returning.adjacency.Reaches 3 2 ∧ [3, 2].Sublist [5, 3, 1, 2, 0] ∧
    returning.adjacency.Reaches 1 3 := by
  have inside : 0 < returning.size := by decide
  have left : returning.adjacency.postorder 0 = [5, 3, 1, 2, 0] := by cbv
  have leftLater : returning.adjacency.postorder 3 = [1, 5, 3] := by cbv
  have leftBack : returning.adjacency.postorder 1 = [5, 3, 1] := by cbv
  obtain ⟨recursive, -, -, reached, before⟩ :=
    @Adjacency.postorder_depthFirst returning.adjacency 0 inside
  obtain ⟨-, -, -, reachedLater, -⟩ :=
    @Adjacency.postorder_depthFirst returning.adjacency 3 (by decide)
  obtain ⟨-, -, -, reachedBack, -⟩ :=
    @Adjacency.postorder_depthFirst returning.adjacency 1 (by decide)
  have second : returning.adjacency.Reaches 0 2 := (reached 2).1 (by simp [left])
  have away : ¬ returning.adjacency.Reaches 3 2 := fun reaches => by
    simpa [leftLater] using (reachedLater 2).2 reaches
  refine ⟨inside, left, recursive.symm.trans left, fun reaches => ?_, second, away, ?_, ?_⟩
  · simpa [left] using (reached 4).2 reaches
  · exact left ▸ before 2 3 second (by decide) away
  · exact (reachedBack 3).1 (by simp [leftBack])

end ClientScript.Sample
