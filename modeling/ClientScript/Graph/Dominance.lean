import ClientScript.Graph.Links

/-!
Dominance. A node dominates another one if every path from the entry to the latter passes it. Nodes
that can be reached are numbered in depth-first order, and each is linked to where the chains of its
predecessors meet, in passes over all of them until a pass changes nothing. Links then lead to the
immediate dominators.
-/
namespace ClientScript

namespace Numbering

open Links

variable {g : Adjacency} {start : Nat}

/-- How far the link of a node is from the top; most for a node without one. -/
def room (n : Numbering g start) (l : Links) (v : Nat) : Nat :=
  match l.up v with
  | some p => n.count - n.post p
  | none => n.count + 1

def slack (n : Numbering g start) (l : Links) : List Nat → Nat
  | [] => 0
  | v :: vs => n.room l v + n.slack l vs

variable {n : Numbering g start} {l l' : Links} {s v m : Nat} {vs : List Nat}

theorem slack_le (le : ∀ v, n.room l' v ≤ n.room l v) : n.slack l' vs ≤ n.slack l vs := by
  induction vs with
  | nil => exact Nat.le_refl _
  | cons v vs ih => exact Nat.add_le_add (le v) ih

theorem slack_lt (le : ∀ v, n.room l' v ≤ n.room l v) (member : v ∈ vs)
    (less : n.room l' v < n.room l v) : n.slack l' vs < n.slack l vs := by
  induction vs with
  | nil => exact absurd member List.not_mem_nil
  | cons u us ih =>
    rcases List.mem_cons.1 member with rfl | later
    · exact Nat.add_lt_add_of_lt_of_le less (slack_le le)
    · exact Nat.add_lt_add_of_le_of_lt (le u) (ih later)

theorem Valid.room_relink_lt (valid : n.Valid (s + 1) l) (here : n.number? v = some s)
    (other : v ≠ start) (meets : MeetsAll l (g.prev v) (some m)) (changed : l.up v ≠ some m) :
    n.room (l.relink v m) v < n.room l v := by
  have bound := post_lt (n := n) m
  rw [room, room, valid.up_relink here, if_pos rfl]
  cases before : l.up v with
  | none => exact Nat.lt_succ_of_le (Nat.sub_le _ _)
  | some i =>
    have differ : i ≠ m := fun same => changed (same ▸ before)
    have less := (valid.eq_or_lt (valid.covers v i m before other meets.2.1)).resolve_left differ
    change n.count - n.post m < n.count - n.post i
    omega

theorem Valid.room_relink_le (valid : n.Valid (s + 1) l) (here : n.number? v = some s)
    (other : v ≠ start) (meets : MeetsAll l (g.prev v) (some m)) (w : Nat) :
    n.room (l.relink v m) w ≤ n.room l w := by
  by_cases same : w = v
  · subst same
    by_cases changed : l.up w = some m
    · exact Nat.le_of_eq (by rw [room, room, valid.up_relink here, if_pos rfl, changed])
    · exact Nat.le_of_lt (valid.room_relink_lt here other meets changed)
  · exact Nat.le_of_eq (by rw [room, room, valid.up_relink here, if_neg same])

def visit (n : Numbering g start) (l : Links) (climbs : n.Climbs l) (v : Nat) : Links × Bool :=
  if v = start then (l, false)
  else
    match n.nearest l climbs v with
    | none => (l, false)
    | some m => (l.relink v m, l.up v != some m)

theorem visit_cases (valid : n.Valid (s + 1) l) (climbs : n.Climbs l)
    (here : n.number? v = some s) : v = start ∧ n.visit l climbs v = (l, false) ∨
      ∃ m, v ≠ start ∧ MeetsAll l (g.prev v) (some m) ∧
        n.visit l climbs v = (l.relink v m, l.up v != some m) := by
  unfold visit
  split
  · rename_i root
    exact .inl ⟨root, rfl⟩
  · rename_i other
    split
    · rename_i none
      exact absurd none (valid.nearest_ne_none here other climbs)
    · rename_i m found
      exact .inr ⟨m, other, found ▸ meetsAll_nearest valid climbs v, rfl⟩

theorem Valid.visit (valid : n.Valid (s + 1) l) (climbs : n.Climbs l)
    (here : n.number? v = some s) : n.Valid s (n.visit l climbs v).1 := by
  rcases visit_cases valid climbs here with ⟨root, visited⟩ | ⟨m, other, meets, visited⟩
  · rw [visited]
    exact valid.skip (root ▸ here)
  · rw [visited]
    exact valid.relink here other meets

theorem number?_order (bound : s < n.count) : n.number? n.order[s] = some s :=
  number?_iff.2 (Array.getElem?_eq_getElem bound)

def sweep (n : Numbering g start) : (s : Nat) → (l : Links) → n.Valid s l → s ≤ n.count →
    Links × Bool
  | 0, l, _, _ => (l, false)
  | s + 1, l, valid, bound =>
    let visited := n.visit l valid.goesUp n.order[s]
    let rest := n.sweep s visited.1 (valid.visit _ (number?_order bound)) (Nat.le_of_succ_le bound)
    (rest.1, visited.2 || rest.2)

theorem Valid.sweep (valid : n.Valid s l) (bound : s ≤ n.count) :
    n.Valid 0 (n.sweep s l valid bound).1 := by
  induction s generalizing l with
  | zero => exact valid
  | succ s ih => exact ih (valid.visit _ (number?_order bound)) (Nat.le_of_succ_le bound)

theorem slack_visit (valid : n.Valid (s + 1) l) (climbs : n.Climbs l)
    (here : n.number? v = some s) :
    n.slack (n.visit l climbs v).1 (List.range g.size) ≤ n.slack l (List.range g.size) ∧
      ((n.visit l climbs v).2 →
        n.slack (n.visit l climbs v).1 (List.range g.size) < n.slack l (List.range g.size)) := by
  rcases visit_cases valid climbs here with ⟨-, visited⟩ | ⟨m, other, meets, visited⟩
  · rw [visited]
    exact ⟨Nat.le_refl _, nofun⟩
  · rw [visited]
    have le := valid.room_relink_le here other meets
    refine ⟨slack_le le, fun changed => slack_lt le (v := v) ?_ ?_⟩
    · exact List.mem_range.2 (inside_of_number? here)
    · exact valid.room_relink_lt here other meets (by simpa using changed)

theorem slack_sweep (valid : n.Valid s l) (bound : s ≤ n.count) :
    n.slack (n.sweep s l valid bound).1 (List.range g.size) ≤ n.slack l (List.range g.size) ∧
      ((n.sweep s l valid bound).2 → n.slack (n.sweep s l valid bound).1 (List.range g.size) <
        n.slack l (List.range g.size)) := by
  induction s generalizing l with
  | zero => exact ⟨Nat.le_refl _, nofun⟩
  | succ s ih =>
    have here := number?_order bound
    obtain ⟨le, less⟩ := slack_visit valid valid.goesUp here
    obtain ⟨le', less'⟩ := ih (valid.visit valid.goesUp here) (Nat.le_of_succ_le bound)
    refine ⟨Nat.le_trans le' le, fun changed => ?_⟩
    rcases Bool.or_eq_true_iff.1 changed with now | later
    · exact Nat.lt_of_le_of_lt le' (less now)
    · exact Nat.lt_of_lt_of_le (less' later) le

def settle (n : Numbering g start) (l : Links) (changed : Bool) (valid : n.Valid n.count l) :
    Links :=
  match changed with
  | false => l
  | true =>
    let swept := n.sweep n.count l valid (Nat.le_refl _)
    n.settle swept.1 swept.2 (valid.sweep _).again
termination_by if changed then n.slack l (List.range g.size) + 1 else 0
decreasing_by
  have less := (slack_sweep valid (Nat.le_refl _)).2
  split
  · rename_i again
    exact Nat.succ_lt_succ (less again)
  · exact Nat.succ_pos _

theorem Valid.settle (valid : n.Valid n.count l) (changed : Bool)
    (last : changed = false → n.Valid 0 l) : n.Valid 0 (n.settle l changed valid) := by
  fun_induction Numbering.settle n l changed valid with
  | case1 l valid => exact last rfl
  | case2 l valid _ ih => exact ih fun _ => valid.sweep (Nat.le_refl _)

end Numbering

structure DominatorTree where
  entry : Nat
  /-- The immediate dominator of each node that can be reached. That of the entry is the entry. -/
  idom : Array (Option Nat)
  below : Array (List Nat)
  ends : WellFounded fun d v => v ≠ entry ∧ idom[v]?.join = some d

namespace DominatorTree

def size (t : DominatorTree) : Nat := t.idom.size

def immediate? (t : DominatorTree) (v : Nat) : Option Nat :=
  if v = t.entry then none else t.idom[v]?.join

theorem immediate?_eq_some {t : DominatorTree} {v d : Nat} :
    t.immediate? v = some d ↔ v ≠ t.entry ∧ t.idom[v]?.join = some d := by
  unfold immediate?
  split <;> simp_all

def isReachable (t : DominatorTree) (v : Nat) : Bool := v == t.entry || (t.immediate? v).isSome

def chain (t : DominatorTree) (v : Nat) : List Nat :=
  match _h : t.immediate? v with
  | some d => v :: t.chain d
  | none => [v]
termination_by t.ends.wrap v
decreasing_by exact immediate?_eq_some.1 _h

def dominates (t : DominatorTree) (a b : Nat) : Bool :=
  t.isReachable b && t.isReachable a && (t.chain b).contains a

def strictlyDominates (t : DominatorTree) (a b : Nat) : Bool := a != b && t.dominates a b

def depth (t : DominatorTree) (v : Nat) : Nat := (t.chain v).length - 1

def children (t : DominatorTree) (v : Nat) : List Nat := t.below[v]?.getD []

def toDigraph (t : DominatorTree) : Digraph :=
  .ofEdges t.size ((List.range t.size).filterMap fun v => (t.immediate? v).map (·, v))

def enter (entry : Nat) (idom : Array (Option Nat)) (below : Array (List Nat)) (v : Nat) :
    Array (List Nat) :=
  match idom[v]?.join with
  | some d => if v = entry then below else below.modify d (· ++ [v])
  | none => below

def ofLinks {g : Adjacency} {entry : Nat} (n : Numbering g entry) (l : Links)
    (valid : n.Valid 0 l) : DominatorTree where
  entry := entry
  idom := l
  below := (List.range g.size).foldl (enter entry l) (Array.replicate g.size [])
  ends := by
    refine Subrelation.wf ?_ (measure fun v => n.count - n.post v).wf
    intro d v h
    have higher := valid.climbs v d h.2 h.1
    have bound := Numbering.post_lt (n := n) d
    change n.count - n.post d < n.count - n.post v
    omega

def unreached (size entry : Nat) : DominatorTree where
  entry := entry
  idom := Array.replicate size none
  below := Array.replicate size []
  ends := ⟨fun v => ⟨v, fun d h => by simp [Adjacency.join_getElem?_replicate] at h⟩⟩

end DominatorTree

def Adjacency.dominators (g : Adjacency) (entry : Nat) : DominatorTree :=
  if known : entry < g.size then
    let n := g.numbering entry known
    have valid := Numbering.valid_first known
    .ofLinks n (n.settle (.first g.size entry) true valid) (valid.settle true nofun)
  else .unreached g.size entry

def Digraph.dominators (g : Digraph) (entry : Nat) : DominatorTree := g.adjacency.dominators entry

end ClientScript
