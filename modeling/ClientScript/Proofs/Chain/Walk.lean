import ClientScript.Proofs.Chain.Removal

/-!
Walks from both ends. What a walk has taken from the front, what it has left, and what it has taken
from the back in reverse make up the entries of the chain at any time. Main statement: each request
takes one entry until all are taken, whichever ends they are taken from.
-/
namespace ClientScript.Chain

inductive Walk.End where
  | front
  | back

structure Walk.Progress where
  fronts : List (Nat × Instruction)
  backs : List (Nat × Instruction)
  rest : Walk

/-- A request at one end. It changes nothing if there is no answer. -/
def Walk.Progress.take (c : Chain) (p : Progress) : End → Progress
  | .front =>
    match p.rest.next? c with
    | some (e, rest) => ⟨p.fronts ++ [e], p.backs, rest⟩
    | none => p
  | .back =>
    match p.rest.nextBack? c with
    | some (e, rest) => ⟨p.fronts, p.backs ++ [e], rest⟩
    | none => p

def visited (c : Chain) (ends : List Walk.End) : Walk.Progress :=
  ends.foldl (Walk.Progress.take c) ⟨[], [], c.walk⟩

/-- The entries between those that a walk has taken from either end. -/
structure Between (xs : List (Nat × Instruction)) (p : Walk.Progress)
    (middle : List (Nat × Instruction)) : Prop where
  split : xs = p.fronts ++ middle ++ p.backs.reverse
  remaining : p.rest.remaining = middle.length
  front : middle ≠ [] → p.rest.front = firstOf middle
  back : middle ≠ [] → p.rest.back = lastOf middle

variable {c : Chain} {xs middle : List (Nat × Instruction)} {p : Walk.Progress}

section

variable {w : Walk} {n : Nat} {e : Nat × Instruction} {prev next : Option Nat}
  (more : w.remaining = n + 1) (live : c.live? e.1 = some ⟨some e.2, prev, next⟩)
include more live

theorem next?_of_live (front : w.front = some e.1) : w.next? c = some (e, ⟨next, w.back, n⟩) := by
  simp only [Walk.next?, more, front, live, Option.map_some]

theorem nextBack?_of_live (back : w.back = some e.1) :
    w.nextBack? c = some (e, ⟨w.front, prev, n⟩) := by
  simp only [Walk.nextBack?, more, back, live, Option.map_some]

end

theorem between_walk (h : c.Holds xs) : Between xs ⟨[], [], c.walk⟩ xs :=
  ⟨by simp, h.length, fun _ => h.head, fun _ => h.tail⟩

theorem Between.takeFront (h : c.Holds xs) (between : Between xs p middle) :
    ∃ middle', Between xs (p.take c .front) middle' ∧ middle'.length = middle.length - 1 := by
  obtain ⟨split, remaining, front, back⟩ := between
  cases middle with
  | nil =>
    have stops : p.rest.next? c = none := by rw [Walk.next?, remaining]; rfl
    refine ⟨[], ?_, rfl⟩
    rw [Walk.Progress.take, stops]
    exact ⟨split, remaining, front, back⟩
  | cons e middle =>
    have order : xs = p.fronts ++ e :: (middle ++ p.backs.reverse) := by rw [split]; simp
    have leads := next?_of_live remaining (order ▸ h).live (front (List.cons_ne_nil _ _))
    refine ⟨middle, ?_, rfl⟩
    rw [Walk.Progress.take, leads]
    refine ⟨by rw [split]; simp, rfl, fun more => ?_, fun more => ?_⟩
    · obtain ⟨e', middle', rfl⟩ := List.exists_cons_of_ne_nil more
      rfl
    · obtain ⟨e', middle', rfl⟩ := List.exists_cons_of_ne_nil more
      change p.rest.back = _
      rw [back (List.cons_ne_nil _ _), lastOf_cons, lastOf_cons, Option.or_assoc, Option.some_or]

theorem Between.takeBack (h : c.Holds xs) (between : Between xs p middle) :
    ∃ middle', Between xs (p.take c .back) middle' ∧ middle'.length = middle.length - 1 := by
  obtain ⟨split, remaining, front, back⟩ := between
  rcases List.eq_nil_or_concat middle with rfl | ⟨middle, e, rfl⟩
  · have stops : p.rest.nextBack? c = none := by rw [Walk.nextBack?, remaining]; rfl
    refine ⟨[], ?_, rfl⟩
    rw [Walk.Progress.take, stops]
    exact ⟨split, remaining, front, back⟩
  · rw [List.concat_eq_append] at *
    have order : xs = (p.fronts ++ middle) ++ e :: p.backs.reverse := by rw [split]; simp
    have more : p.rest.remaining = middle.length + 1 := by rw [remaining, List.length_append]; rfl
    have last : p.rest.back = some e.1 := by rw [back (by simp), lastOf_concat]
    have leads := nextBack?_of_live more (order ▸ h).live last
    refine ⟨middle, ?_, by simp⟩
    rw [Walk.Progress.take, leads]
    refine ⟨by rw [split]; simp, rfl, fun more => ?_, fun more => ?_⟩
    · obtain ⟨e', middle', rfl⟩ := List.exists_cons_of_ne_nil more
      exact front (by simp)
    · obtain ⟨e', middle', rfl⟩ := List.exists_cons_of_ne_nil more
      change lastOf _ = _
      rw [lastOf_append, lastOf_cons, Option.or_assoc, Option.some_or]

theorem Between.take (h : c.Holds xs) (between : Between xs p middle) (side : Walk.End) :
    ∃ middle', Between xs (p.take c side) middle' ∧ middle'.length = middle.length - 1 := by
  cases side with
  | front => exact between.takeFront h
  | back => exact between.takeBack h

theorem Between.takeAll (h : c.Holds xs) (between : Between xs p middle) (ends : List Walk.End) :
    ∃ middle', Between xs (ends.foldl (Walk.Progress.take c) p) middle' ∧
      middle'.length = middle.length - ends.length := by
  induction ends generalizing p middle with
  | nil => exact ⟨middle, between, rfl⟩
  | cons side ends ih =>
    obtain ⟨middle', between', one⟩ := between.take h side
    obtain ⟨middle'', between'', others⟩ := ih between'
    refine ⟨middle'', between'', ?_⟩
    rw [others, one, List.length_cons]
    omega

theorem Holds.visited (h : c.Holds xs) (ends : List Walk.End) :
    ∃ middle, xs = (c.visited ends).fronts ++ middle ++ (c.visited ends).backs.reverse ∧
      (c.visited ends).rest.remaining = middle.length ∧
      middle.length = xs.length - ends.length := by
  obtain ⟨middle, between, left⟩ := (between_walk h).takeAll h ends
  exact ⟨middle, between.split, between.remaining, left⟩

end ClientScript.Chain
