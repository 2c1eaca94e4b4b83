import ClientScript.Graph.Digraph

/-!
Strongly connected components: classes of nodes that reach each other. A search numbers the nodes it
comes to and keeps them on a stack. The low mark of a node is the least number of a stacked node
that the search has found it to lead to. When the search leaves a node whose low mark is its own
number, the stack down to that node is a component. A component is found after every one it leads
to.
-/
namespace ClientScript

structure Descent where
  number : Array (Option Nat)
  low : Array Nat
  stacked : Array Bool
  /-- The latest node first. -/
  stack : List Nat
  next : Nat
  /-- The latest component first. -/
  found : List (List Nat)

namespace Descent

def start (size : Nat) : Descent where
  number := Array.replicate size none
  low := Array.replicate size 0
  stacked := Array.replicate size false
  stack := []
  next := 0
  found := []

variable (s : Descent) (v : Nat)

def number? : Option Nat := s.number[v]?.join

def rank : Nat := (s.number? v).getD 0

def lowOf : Nat := s.low[v]?.getD 0

def isStacked : Bool := s.stacked[v]?.getD false

def isFresh : Bool := s.number[v]? == some none

def enter : Descent where
  number := s.number.setIfInBounds v (some s.next)
  low := s.low.setIfInBounds v s.next
  stacked := s.stacked.setIfInBounds v true
  stack := v :: s.stack
  next := s.next + 1
  found := s.found

/-- Note that a node leads to a stacked node with number `n`, or to one with that low mark. -/
def lower (n : Nat) : Descent := { s with low := s.low.modify v (min · n) }

def popTo : List Nat → List Nat × List Nat
  | [] => ([], [])
  | w :: rest =>
    if w = v then ([w], rest)
    else ((w :: (popTo rest).1), (popTo rest).2)

def pop : Descent :=
  let (members, rest) := popTo v s.stack
  { s with
    stacked := members.foldl (fun flags w => flags.setIfInBounds w false) s.stacked
    stack := rest
    found := members :: s.found }

def leave : Descent := if s.number? v = some (s.lowOf v) then s.pop v else s

def freshCount : Nat := s.number.count none

variable {s v}

theorem freshCount_enter (fresh : s.isFresh v) : (s.enter v).freshCount < s.freshCount := by
  obtain ⟨inside, unset⟩ := Array.getElem?_eq_some_iff.1 (beq_iff_eq.1 fresh)
  have positive : 0 < s.number.count none :=
    Array.count_pos_iff.2 (unset ▸ Array.getElem_mem inside)
  simp only [freshCount, enter, Array.setIfInBounds_def, inside, dif_pos]
  rw [Array.count_set, unset]
  simp only [beq_self_eq_true, if_true]
  have other : (some s.next == (none : Option Nat)) = false := rfl
  rw [other]
  simp only [Bool.false_eq_true, if_false]
  omega

theorem freshCount_lower {n : Nat} : (s.lower v n).freshCount = s.freshCount := rfl

theorem freshCount_leave : (s.leave v).freshCount = s.freshCount := by
  rw [leave]
  split <;> rfl

end Descent

namespace Adjacency

open Descent

def follow (g : Adjacency) (v : Nat) : (ws : List Nat) → (s : Descent) →
    {t : Descent // t.freshCount ≤ s.freshCount}
  | [], s => ⟨s, Nat.le_refl _⟩
  | w :: ws, s =>
    if fresh : s.isFresh w then
      let inner := g.follow w (g.next w) (s.enter w)
      let t := inner.1.leave w
      have less : t.freshCount < s.freshCount := by
        rw [show t.freshCount = inner.1.freshCount from freshCount_leave]
        exact Nat.lt_of_le_of_lt inner.2 (freshCount_enter fresh)
      let rest := g.follow v ws (t.lower v (t.lowOf w))
      ⟨rest.1, Nat.le_trans rest.2 (Nat.le_of_lt less)⟩
    else if s.isStacked w then
      let rest := g.follow v ws (s.lower v (s.rank w))
      ⟨rest.1, Nat.le_trans rest.2 (Nat.le_of_eq freshCount_lower)⟩
    else g.follow v ws s
termination_by ws s => (s.freshCount, ws.length)
decreasing_by
  · exact .left _ _ (freshCount_enter fresh)
  · exact .left _ _ less
  · exact .right _ (Nat.lt_succ_self _)
  · exact .right _ (Nat.lt_succ_self _)

def descend (g : Adjacency) (s : Descent) (v : Nat) : Descent :=
  if s.isFresh v then (g.follow v (g.next v) (s.enter v)).1.leave v else s

/-- The components, each after those that it leads to; the members of each latest first. -/
def components (g : Adjacency) : List (List Nat) :=
  ((List.range g.size).foldl g.descend (start g.size)).found.reverse

end Adjacency

def Digraph.components (g : Digraph) : List (List Nat) := g.adjacency.components

end ClientScript
