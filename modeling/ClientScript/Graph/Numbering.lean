import ClientScript.Graph.DepthFirst

/-!
Numbers in depth-first order. A search leaves each node once, and a node before the one that it was
entered from. So, counted as they are left, every node but the start has a predecessor with a
greater number.
-/
namespace ClientScript

namespace Adjacency

namespace Visit

def node : Visit → Nat
  | .enter v => v
  | .leave v => v

def left? : Visit → Option Nat
  | .enter _ => none
  | .leave v => some v

end Visit

def toLeave (work : List Visit) : List Nat := work.filterMap Visit.left?

/-- Each node of a work list is the start or has a predecessor that is left later. -/
def Fed (next : Nat → List Nat) (start : Nat) : List Visit → Prop
  | [] => True
  | x :: rest => (x.node = start ∨ ∃ p ∈ toLeave rest, x.node ∈ next p) ∧ Fed next start rest

section

variable {next : Nat → List Nat} {start u v w : Nat} {work rest : List Visit} {seen : Marks}

theorem toLeave_enter (us : List Nat) (rest : List Visit) :
    toLeave (us.map .enter ++ rest) = toLeave rest := by
  induction us with
  | nil => rfl
  | cons u us ih => exact ih

theorem toLeave_leave (us : List Nat) : toLeave (us.map .leave) = us := by
  induction us with
  | nil => rfl
  | cons u us ih => exact congrArg (u :: ·) ih

theorem mem_postorderFrom_of_toLeave (member : v ∈ toLeave work) :
    v ∈ postorderFrom next work seen := by
  fun_induction postorderFrom next work seen with
  | case1 => exact member
  | case2 u rest seen ih =>
    rcases List.mem_cons.1 member with rfl | later
    · exact List.mem_cons_self
    · exact List.mem_cons_of_mem _ (ih later)
  | case3 u rest seen opened ih =>
    refine ih ?_
    rw [toLeave_enter]
    exact List.mem_cons_of_mem _ member
  | case4 u rest seen shut ih => exact ih member

theorem mem_postorderFrom_entered :
    u ∈ postorderFrom next ((next u).map .enter ++ .leave u :: rest) seen := by
  refine mem_postorderFrom_of_toLeave ?_
  rw [toLeave_enter]
  exact List.mem_cons_self

theorem mem_postorderFrom_of_enter (member : .enter v ∈ work) (inside : v < seen.bits.size) :
    v ∈ postorderFrom next work seen ∨ seen.has v := by
  fun_induction postorderFrom next work seen with
  | case1 => simp at member
  | case2 u rest seen ih =>
    exact (ih (by simpa using member) inside).imp_left (List.mem_cons_of_mem _)
  | case3 u rest seen opened ih =>
    by_cases same : v = u
    · subst same
      exact .inl mem_postorderFrom_entered
    · have later : .enter v ∈ (next u).map .enter ++ .leave u :: rest := by
        simpa [same] using Or.inr member
      refine (ih later (by rwa [Marks.size_mark])).imp_right fun has => ?_
      simpa [Marks.has_mark, same] using has
  | case4 u rest seen shut ih =>
    rcases List.mem_cons.1 member with same | later
    · obtain rfl := Visit.enter.inj same
      exact .inr (by simpa [Marks.isOpen_iff, inside] using shut)
    · exact ih later inside

theorem mem_postorderFrom_of_edge (member : u ∈ postorderFrom next work seen)
    (fresh : u ∉ toLeave work) (edge : v ∈ next u) (inside : v < seen.bits.size) :
    v ∈ postorderFrom next work seen ∨ seen.has v := by
  fun_induction postorderFrom next work seen with
  | case1 => simp at member
  | case2 w rest seen ih =>
    obtain ⟨other, fresh⟩ := not_or.1 (mt List.mem_cons.2 fresh)
    have later := (List.mem_cons.1 member).resolve_left other
    exact (ih later fresh inside).imp_left (List.mem_cons_of_mem _)
  | case3 w rest seen opened ih =>
    have room : v < (seen.mark w).bits.size := by rwa [Marks.size_mark]
    have found : v ∈ postorderFrom next ((next w).map .enter ++ .leave w :: rest) (seen.mark w) ∨
        (seen.mark w).has v := by
      by_cases same : u = w
      · subst same
        exact mem_postorderFrom_of_enter (by simp [edge]) room
      · refine ih member ?_ room
        rw [toLeave_enter]
        exact fun among => fresh ((List.mem_cons.1 among).resolve_left same)
    by_cases same : v = w
    · subst same
      exact .inl mem_postorderFrom_entered
    · exact found.imp_right fun has => by simpa [Marks.has_mark, same] using has
  | case4 w rest seen shut ih => exact ih member fresh inside

theorem toLeave_or_isOpen (member : v ∈ postorderFrom next work seen) :
    v ∈ toLeave work ∨ seen.isOpen v := by
  fun_induction postorderFrom next work seen with
  | case1 => simp at member
  | case2 u rest seen ih =>
    rcases List.mem_cons.1 member with rfl | later
    · exact .inl List.mem_cons_self
    · exact (ih later).imp_left (List.mem_cons_of_mem _)
  | case3 u rest seen opened ih =>
    rcases ih member with among | still
    · rw [toLeave_enter] at among
      rcases List.mem_cons.1 among with rfl | later
      · exact .inr opened
      · exact .inl later
    · rw [Marks.isOpen_iff, Marks.has_mark, Marks.size_mark] at still
      simp only [Bool.or_eq_true, not_or] at still
      exact .inr (Marks.isOpen_iff.2 ⟨still.1, still.2.1⟩)
  | case4 u rest seen shut ih => exact ih member

theorem nodup_postorderFrom (distinct : (toLeave work).Nodup)
    (entered : ∀ v ∈ toLeave work, ¬ seen.isOpen v) : (postorderFrom next work seen).Nodup := by
  fun_induction postorderFrom next work seen with
  | case1 => exact List.nodup_nil
  | case2 u rest seen ih =>
    obtain ⟨other, distinct⟩ := List.nodup_cons.1 distinct
    refine List.nodup_cons.2 ⟨fun again => ?_, ih distinct fun v later =>
      entered v (List.mem_cons_of_mem _ later)⟩
    rcases toLeave_or_isOpen again with later | opened
    · exact other later
    · exact entered u List.mem_cons_self opened
  | case3 u rest seen opened ih =>
    have fresh : u ∉ toLeave rest := fun among => entered u among opened
    have shown : toLeave ((next u).map .enter ++ .leave u :: rest) = u :: toLeave rest :=
      toLeave_enter ..
    rw [shown] at ih
    refine ih (List.nodup_cons.2 ⟨fresh, distinct⟩) fun v among => ?_
    rw [Marks.isOpen_iff, Marks.has_mark, Marks.size_mark]
    rcases List.mem_cons.1 among with rfl | later
    · simp [(Marks.isOpen_iff.1 opened).1]
    · have marked := entered v later
      rw [Marks.isOpen_iff] at marked
      simp only [Bool.or_eq_true, not_or]
      exact fun still => marked ⟨still.1, still.2.1⟩
  | case4 u rest seen shut ih => exact ih distinct entered

theorem fed_enter {us : List Nat} (among : ∀ v ∈ us, ∃ p ∈ toLeave rest, v ∈ next p)
    (fed : Fed next start rest) : Fed next start (us.map .enter ++ rest) := by
  induction us with
  | nil => exact fed
  | cons u us ih =>
    refine ⟨.inr ?_, ih fun v member => among v (List.mem_cons_of_mem _ member)⟩
    change ∃ p ∈ toLeave (us.map .enter ++ rest), u ∈ next p
    rw [toLeave_enter]
    exact among u List.mem_cons_self

/-- Nodes that wait for a predecessor to be left are left before it. -/
theorem fed_postorderFrom (fed : Fed next start work) :
    Fed next start ((postorderFrom next work seen).map .leave) := by
  fun_induction postorderFrom next work seen with
  | case1 => trivial
  | case2 u rest seen ih =>
    refine ⟨fed.1.imp_right ?_, ih fed.2⟩
    rintro ⟨p, later, edge⟩
    rw [toLeave_leave]
    exact ⟨p, mem_postorderFrom_of_toLeave later, edge⟩
  | case3 u rest seen opened ih =>
    exact ih (fed_enter (fun v edge => ⟨u, List.mem_cons_self, edge⟩) fed)
  | case4 u rest seen shut ih => exact ih fed.2

theorem exists_later_of_fed {order : List Nat} (fed : Fed next start (order.map .leave)) {i : Nat}
    (here : order[i]? = some v) :
    v = start ∨ ∃ p j, i < j ∧ order[j]? = some p ∧ v ∈ next p := by
  induction order generalizing i with
  | nil => simp at here
  | cons u us ih =>
    cases i with
    | zero =>
      obtain rfl : u = v := by simpa using here
      refine fed.1.imp_right ?_
      rintro ⟨p, later, edge⟩
      rw [toLeave_leave] at later
      obtain ⟨j, at_j⟩ := List.mem_iff_getElem?.1 later
      exact ⟨p, j + 1, Nat.succ_pos j, by simpa using at_j, edge⟩
    | succ i =>
      refine (ih fed.2 (by simpa using here)).imp_right ?_
      rintro ⟨p, j, less, at_j, edge⟩
      exact ⟨p, j + 1, Nat.succ_lt_succ less, by simpa using at_j, edge⟩

end

section

variable {g : Adjacency} {start v : Nat}

theorem nodup_postorder (g : Adjacency) (start : Nat) : (g.postorder start).Nodup :=
  nodup_postorderFrom List.nodup_nil (by simp [toLeave, Visit.left?])

theorem inside_of_mem_postorder (member : v ∈ g.postorder start) : v < g.size := by
  rcases toLeave_or_isOpen member with among | opened
  · simp [toLeave, Visit.left?] at among
  · simpa [Marks.none] using (Marks.isOpen_iff.1 opened).1

theorem start_mem_postorder (inside : start < g.size) : start ∈ g.postorder start :=
  (mem_postorderFrom_of_enter List.mem_cons_self (by simpa [Marks.none] using inside)).resolve_right
    (by simp [Marks.has, Marks.none, inside])

theorem mem_postorder_of_edge {u : Nat} (member : u ∈ g.postorder start) (edge : v ∈ g.next u) :
    v ∈ g.postorder start := by
  have inside := (g.inside u v edge).2
  exact (mem_postorderFrom_of_edge member (by simp [toLeave, Visit.left?]) edge
    (by simpa [Marks.none] using inside)).resolve_right (by simp [Marks.has, Marks.none, inside])

theorem exists_later_of_postorder {i : Nat} (here : (g.postorder start)[i]? = some v) :
    v = start ∨ ∃ p j, i < j ∧ (g.postorder start)[j]? = some p ∧ v ∈ g.next p :=
  have fed : Fed g.next start [.enter start] := ⟨.inl rfl, trivial⟩
  exists_later_of_fed (fed_postorderFrom fed) here

end

def numberFrom : Nat → List Nat → Array (Option Nat) → Array (Option Nat)
  | _, [], numbers => numbers
  | i, v :: vs, numbers => numberFrom (i + 1) vs (numbers.setIfInBounds v (some i))

theorem join_getElem?_replicate (k w : Nat) :
    (Array.replicate k (none : Option Nat))[w]?.join = none := by
  rw [Array.getElem?_replicate]
  split <;> rfl

theorem join_getElem?_numberFrom {vs : List Nat} (distinct : vs.Nodup) (i : Nat)
    {numbers : Array (Option Nat)} (inside : ∀ v ∈ vs, v < numbers.size)
    (fresh : ∀ v ∈ vs, numbers[v]?.join = none) (w k : Nat) :
    (numberFrom i vs numbers)[w]?.join = some k ↔
      numbers[w]?.join = some k ∨ ∃ j, k = i + j ∧ vs[j]? = some w := by
  induction vs generalizing i numbers with
  | nil => simp [numberFrom]
  | cons v vs ih =>
    obtain ⟨other, distinct⟩ := List.nodup_cons.1 distinct
    have room := inside v List.mem_cons_self
    have unset := fresh v List.mem_cons_self
    rw [numberFrom, ih distinct]
    · rw [Array.getElem?_setIfInBounds]
      by_cases same : v = w
      · subst same
        simp only [if_true, room, Option.join_some, Option.some.injEq, unset, reduceCtorEq,
          false_or]
        constructor
        · rintro (rfl | ⟨j, -, at_j⟩)
          · exact ⟨0, rfl, rfl⟩
          · exact absurd (List.mem_of_getElem? at_j) other
        · rintro ⟨j, rfl, at_j⟩
          cases j with
          | zero => exact .inl rfl
          | succ j => exact .inr ⟨j, by omega, by simpa using at_j⟩
      · rw [if_neg same]
        refine or_congr_right ⟨?_, ?_⟩
        · rintro ⟨j, rfl, at_j⟩
          exact ⟨j + 1, by omega, by simpa using at_j⟩
        · rintro ⟨j, rfl, at_j⟩
          cases j with
          | zero => exact absurd (by simpa using at_j) same
          | succ j => exact ⟨j, by omega, by simpa using at_j⟩
    · intro u member
      rw [Array.size_setIfInBounds]
      exact inside u (List.mem_cons_of_mem _ member)
    · intro u member
      have ne : v ≠ u := fun eq => other (eq ▸ member)
      rw [Array.getElem?_setIfInBounds, if_neg ne]
      exact fresh u (List.mem_cons_of_mem _ member)

end Adjacency

/-- Nodes in an order that ends with the start, and the number of each. Every other node has a
    predecessor later in the order. -/
structure Numbering (g : Adjacency) (start : Nat) where
  order : Array Nat
  numbers : Array (Option Nat)
  numbered : ∀ v i : Nat, numbers[v]?.join = some i ↔ order[i]? = some v
  inside : ∀ i v : Nat, order[i]? = some v → v < g.size
  start_mem : ∃ i : Nat, order[i]? = some start
  fed : ∀ i v : Nat, order[i]? = some v →
    v = start ∨ ∃ p j, i < j ∧ order[j]? = some p ∧ v ∈ g.next p
  closed : ∀ i u v : Nat, order[i]? = some u → v ∈ g.next u → ∃ j : Nat, order[j]? = some v

def Adjacency.numbering (g : Adjacency) (start : Nat) (known : start < g.size) :
    Numbering g start where
  order := (g.postorder start).toArray
  numbers := Adjacency.numberFrom 0 (g.postorder start) (Array.replicate g.size none)
  numbered := by
    intro v i
    rw [Adjacency.join_getElem?_numberFrom (Adjacency.nodup_postorder g start)]
    · simp [Adjacency.join_getElem?_replicate]
    · intro v member
      simpa using Adjacency.inside_of_mem_postorder member
    · exact fun v _ => Adjacency.join_getElem?_replicate g.size v
  inside := by
    intro i v here
    rw [List.getElem?_toArray] at here
    exact Adjacency.inside_of_mem_postorder (List.mem_of_getElem? here)
  start_mem := by
    simpa using List.mem_iff_getElem?.1 (Adjacency.start_mem_postorder known)
  fed := by
    intro i v here
    simp only [List.getElem?_toArray] at here ⊢
    exact Adjacency.exists_later_of_postorder here
  closed := by
    intro i u v here edge
    simp only [List.getElem?_toArray] at here ⊢
    have member := Adjacency.mem_postorder_of_edge (List.mem_of_getElem? here) edge
    exact List.mem_iff_getElem?.1 member

namespace Numbering

variable {g : Adjacency} {start : Nat} (n : Numbering g start)

def number? (v : Nat) : Option Nat := n.numbers[v]?.join

/-- The number of a node, and 0 for a node without one. -/
def post (v : Nat) : Nat := (n.number? v).getD 0

def count : Nat := n.order.size

variable {n} {u v i : Nat}

theorem number?_iff : n.number? v = some i ↔ n.order[i]? = some v := n.numbered v i

theorem inside_of_number? (known : n.number? v = some i) : v < g.size :=
  n.inside i v (number?_iff.1 known)

theorem post_of_number? (known : n.number? v = some i) : n.post v = i := by simp [post, known]

theorem number?_of_isSome (known : (n.number? v).isSome) : n.number? v = some (n.post v) := by
  obtain ⟨i, found⟩ := Option.isSome_iff_exists.1 known
  rw [found, post_of_number? found]

theorem eq_of_post_eq (hu : (n.number? u).isSome) (hv : (n.number? v).isSome)
    (same : n.post u = n.post v) : u = v := by
  have first := number?_iff.1 (number?_of_isSome hu)
  have second := number?_iff.1 (number?_of_isSome hv)
  rw [same, second] at first
  exact (Option.some.inj first).symm

theorem succ_le_post (here : n.number? v = some i) (known : (n.number? u).isSome) (other : u ≠ v)
    (le : i ≤ n.post u) : i + 1 ≤ n.post u := by
  have differ : n.post u ≠ n.post v := fun same =>
    other (eq_of_post_eq known (by rw [here]; rfl) same)
  rw [post_of_number? here] at differ
  omega

theorem lt_count (known : n.number? v = some i) : i < n.count :=
  (Array.getElem?_eq_some_iff.1 (number?_iff.1 known)).1

theorem start_known : (n.number? start).isSome := by
  obtain ⟨i, here⟩ := n.start_mem
  rw [number?_iff.2 here]
  rfl

theorem post_lt (v : Nat) : n.post v < n.count := by
  cases known : n.number? v with
  | none =>
    have some_start := number?_of_isSome (n := n) start_known
    rw [post, known]
    exact Nat.lt_of_le_of_lt (Nat.zero_le _) (lt_count some_start)
  | some i => exact post_of_number? known ▸ lt_count known

theorem exists_feeding (known : (n.number? v).isSome) (other : v ≠ start) :
    ∃ p ∈ g.prev v, (n.number? p).isSome ∧ n.post v < n.post p := by
  obtain first | ⟨p, j, less, here, edge⟩ := n.fed _ v (number?_iff.1 (number?_of_isSome known))
  · exact absurd first other
  · have number := number?_iff.2 here
    exact ⟨p, (g.agree p v).2 edge, by rw [number]; rfl,
      (post_of_number? number).symm ▸ less⟩

theorem post_lt_start {v : Nat} (known : (n.number? v).isSome) (other : v ≠ start) :
    n.post v < n.post start := by
  obtain ⟨p, -, number, less⟩ := exists_feeding known other
  by_cases first : p = start
  · exact first ▸ less
  · exact Nat.lt_trans less (post_lt_start number first)
termination_by n.count - n.post v
decreasing_by
  have bound := post_lt (n := n) p
  omega

end Numbering

end ClientScript
