/-!
Finite directed graphs on the nodes 0, 1, …, as a list of edges. The order of edges is kept, and
parallel edges and loops are allowed. Successors and predecessors are read off the same list.
-/
namespace ClientScript

structure Digraph where
  size : Nat
  edges : List (Nat × Nat)
  inside : ∀ e ∈ edges, e.1 < size ∧ e.2 < size

namespace Digraph

def ofEdges (size : Nat) (edges : List (Nat × Nat)) : Digraph where
  size := size
  edges := edges.filter fun e => e.1 < size && e.2 < size
  inside := by
    intro e h
    simpa using (List.mem_filter.1 h).2

def next (g : Digraph) (u : Nat) : List Nat :=
  (g.edges.filter fun e => e.1 == u).map (·.2)

def prev (g : Digraph) (v : Nat) : List Nat :=
  (g.edges.filter fun e => e.2 == v).map (·.1)

theorem mem_next {g : Digraph} {u v : Nat} : v ∈ g.next u ↔ (u, v) ∈ g.edges := by
  simp only [next, List.mem_map, List.mem_filter, beq_iff_eq]
  constructor
  · rintro ⟨⟨a, b⟩, ⟨h, rfl⟩, rfl⟩
    exact h
  · intro h
    exact ⟨(u, v), ⟨h, rfl⟩, rfl⟩

theorem mem_prev {g : Digraph} {u v : Nat} : u ∈ g.prev v ↔ (u, v) ∈ g.edges := by
  simp only [prev, List.mem_map, List.mem_filter, beq_iff_eq]
  constructor
  · rintro ⟨⟨a, b⟩, ⟨h, rfl⟩, rfl⟩
    exact h
  · intro h
    exact ⟨(u, v), ⟨h, rfl⟩, rfl⟩

theorem mem_prev_iff_mem_next {g : Digraph} {u v : Nat} : u ∈ g.prev v ↔ v ∈ g.next u := by
  rw [mem_prev, mem_next]

theorem next_inside {g : Digraph} {u v : Nat} (h : v ∈ g.next u) : u < g.size ∧ v < g.size :=
  g.inside _ (mem_next.1 h)

end Digraph

inductive Walk (next : Nat → List Nat) : Nat → Nat → List Nat → Prop where
  | one (u : Nat) : Walk next u u [u]
  | step {u v w : Nat} {nodes : List Nat} (edge : v ∈ next u) (rest : Walk next v w nodes) :
      Walk next u w (u :: nodes)

namespace Walk

variable {next : Nat → List Nat} {u v w : Nat} {nodes xs ys : List Nat}

theorem append (first : Walk next u v xs) (second : Walk next v w (v :: ys)) :
    Walk next u w (xs ++ ys) := by
  induction first with
  | one u => exact second
  | step edge _ ih => exact .step edge (ih second)

theorem starts (h : Walk next u v nodes) : ∃ rest, nodes = u :: rest := by
  cases h with
  | one => exact ⟨[], rfl⟩
  | step _ _ => exact ⟨_, rfl⟩

theorem last_mem (h : Walk next u v nodes) : v ∈ nodes := by
  induction h with
  | one u => exact List.mem_singleton_self u
  | step _ _ ih => exact List.mem_cons_of_mem _ ih

end Walk

/-- The successors and the predecessors of nodes, each in an order of its own, which describe the
    same edges. -/
structure Adjacency where
  size : Nat
  next : Nat → List Nat
  prev : Nat → List Nat
  agree : ∀ u v, u ∈ prev v ↔ v ∈ next u
  inside : ∀ u v, v ∈ next u → u < size ∧ v < size

def Adjacency.Reaches (g : Adjacency) (u v : Nat) : Prop := ∃ nodes, Walk g.next u v nodes

namespace Adjacency.Reaches

theorem refl (g : Adjacency) (u : Nat) : g.Reaches u u := ⟨_, .one u⟩

theorem trans {g : Adjacency} {u v w : Nat} (h : g.Reaches u v) (k : g.Reaches v w) :
    g.Reaches u w := by
  obtain ⟨xs, hx⟩ := h
  obtain ⟨ys, hy⟩ := k
  obtain ⟨rest, rfl⟩ := hy.starts
  exact ⟨_, hx.append hy⟩

theorem edge {g : Adjacency} {u v : Nat} (h : v ∈ g.next u) : g.Reaches u v :=
  ⟨_, .step h (.one v)⟩

theorem closed {g : Adjacency} {u v : Nat} {S : Nat → Prop} (reaches : g.Reaches u v) (start : S u)
    (edges : ∀ x, S x → ∀ y ∈ g.next x, S y) : S v := by
  obtain ⟨nodes, walk⟩ := reaches
  induction walk with
  | one => exact start
  | step edge _ ih => exact ih (edges _ start _ edge)

end Adjacency.Reaches

namespace Digraph

def adjacency (g : Digraph) : Adjacency where
  size := g.size
  next := g.next
  prev := g.prev
  agree := fun _ _ => mem_prev_iff_mem_next
  inside := fun _ _ => next_inside

def Reaches (g : Digraph) (u v : Nat) : Prop := g.adjacency.Reaches u v

theorem Reaches.refl (g : Digraph) (u : Nat) : g.Reaches u u := Adjacency.Reaches.refl _ u

theorem Reaches.trans {g : Digraph} {u v w : Nat} (h : g.Reaches u v) (k : g.Reaches v w) :
    g.Reaches u w :=
  Adjacency.Reaches.trans h k

end Digraph

end ClientScript
