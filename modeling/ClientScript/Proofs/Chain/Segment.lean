import ClientScript.Proofs.Lift.Numbers
import Mathlib.Data.List.Nodup

/-!
The order of a chain. The links of a chain make one segment, each link leading to the next and back,
and following them gives the entries. Appending and putting an entry in front of another one do to
the entries what their names say.
-/
namespace ClientScript.Chain

def firstOf (xs : List (Nat × Instruction)) : Option Nat := xs.head?.map Prod.fst

def lastOf (xs : List (Nat × Instruction)) : Option Nat := xs.getLast?.map Prod.fst

/-- Links of entries that follow one another, between a number before and one behind. -/
def Segment (links : Array Link) : Option Nat → List (Nat × Instruction) → Option Nat → Prop
  | _, [], _ => True
  | prev, e :: rest, next =>
    links[e.1]? = some ⟨some e.2, prev, (firstOf rest).or next⟩ ∧ Segment links (some e.1) rest next

variable {links links' : Array Link} {prev next : Option Nat} {xs ys : List (Nat × Instruction)}
variable {e : Nat × Instruction}

theorem lastOf_cons (e : Nat × Instruction) (xs : List (Nat × Instruction)) :
    lastOf (e :: xs) = (lastOf xs).or (some e.1) := by
  rw [lastOf, lastOf, List.getLast?_cons]
  cases xs.getLast? <;> rfl

theorem lastOf_concat (xs : List (Nat × Instruction)) (e : Nat × Instruction) :
    lastOf (xs ++ [e]) = some e.1 := by
  simp [lastOf]

theorem lastOf_append (xs ys : List (Nat × Instruction)) :
    lastOf (xs ++ ys) = (lastOf ys).or (lastOf xs) := by
  rw [lastOf, lastOf, lastOf, List.getLast?_append]
  cases ys.getLast? <;> rfl

theorem mem_of_firstOf {n : Nat} (h : firstOf xs = some n) : n ∈ xs.map Prod.fst := by
  obtain ⟨e, first, rfl⟩ := Option.map_eq_some_iff.1 h
  exact List.mem_map.2 ⟨e, List.mem_of_head? first, rfl⟩

theorem mem_of_lastOf {n : Nat} (h : lastOf xs = some n) : n ∈ xs.map Prod.fst := by
  obtain ⟨e, last, rfl⟩ := Option.map_eq_some_iff.1 h
  exact List.mem_map.2 ⟨e, List.mem_of_getLast? last, rfl⟩

theorem firstOf_append (xs ys : List (Nat × Instruction)) :
    firstOf (xs ++ ys) = (firstOf xs).or (firstOf ys) := by
  cases xs <;> rfl

theorem segment_append : Segment links prev (xs ++ ys) next ↔
    Segment links prev xs ((firstOf ys).or next) ∧ Segment links ((lastOf xs).or prev) ys next := by
  induction xs generalizing prev with
  | nil => exact ⟨fun h => ⟨trivial, h⟩, And.right⟩
  | cons e xs ih =>
    rw [List.cons_append, Segment, Segment, ih, firstOf_append, Option.or_assoc, and_assoc,
      lastOf_cons, Option.or_assoc, Option.some_or]

theorem Segment.congr (h : Segment links prev xs next)
    (same : ∀ e ∈ xs, links'[e.1]? = links[e.1]?) : Segment links' prev xs next := by
  induction xs generalizing prev with
  | nil => trivial
  | cons e xs ih =>
    obtain ⟨here, rest⟩ := h
    refine ⟨(same e (by simp)).trans here, ih rest ?_⟩
    intro e' member
    exact same e' (List.mem_cons_of_mem _ member)

theorem getElem?_setNext (links : Array Link) (a id : Nat) (next : Option Nat) :
    (setNext links a next)[id]? =
      if a = id then links[id]?.map fun l => { l with next := next } else links[id]? := by
  rw [setNext, Array.getElem?_modify]

theorem getElem?_setPrev (links : Array Link) (a id : Nat) (prev : Option Nat) :
    (setPrev links a prev)[id]? =
      if a = id then links[id]?.map fun l => { l with prev := prev } else links[id]? := by
  rw [setPrev, Array.getElem?_modify]

theorem Segment.setNext (h : Segment links prev (xs ++ [e]) next) (other : e.1 ∉ xs.map Prod.fst)
    (next' : Option Nat) : Segment (setNext links e.1 next') prev (xs ++ [e]) next' := by
  rw [segment_append] at h ⊢
  obtain ⟨before, last, -⟩ := h
  refine ⟨before.congr fun e' member => ?_, ?_, trivial⟩
  · rw [getElem?_setNext, if_neg]
    rintro same
    exact other (List.mem_map.2 ⟨e', member, same.symm⟩)
  · rw [getElem?_setNext, if_pos rfl, last]
    rfl

theorem Segment.setPrev (h : Segment links prev (e :: xs) next) (other : e.1 ∉ xs.map Prod.fst)
    (prev' : Option Nat) : Segment (setPrev links e.1 prev') prev' (e :: xs) next := by
  obtain ⟨first, rest⟩ := h
  refine ⟨?_, rest.congr fun e' member => ?_⟩
  · rw [getElem?_setPrev, if_pos rfl, first]
    rfl
  · rw [getElem?_setPrev, if_neg]
    rintro same
    exact other (List.mem_map.2 ⟨e', member, same.symm⟩)

def linkNext (links : Array Link) (at? : Option Nat) (next : Option Nat) : Array Link :=
  match at? with
  | some p => setNext links p next
  | none => links

def linkPrev (links : Array Link) (at? : Option Nat) (prev : Option Nat) : Array Link :=
  match at? with
  | some n => setPrev links n prev
  | none => links

theorem Segment.linkNext_last (h : Segment links prev xs next) (nodup : (xs.map Prod.fst).Nodup)
    (next' : Option Nat) : Segment (linkNext links (lastOf xs) next') prev xs next' := by
  rcases List.eq_nil_or_concat xs with rfl | ⟨init, e, rfl⟩
  · trivial
  · rw [List.concat_eq_append] at *
    rw [lastOf_concat]
    rw [List.map_append, List.nodup_append'] at nodup
    exact h.setNext (fun among => nodup.2.2 among (by simp)) next'

theorem Segment.linkPrev_first (h : Segment links prev xs next) (nodup : (xs.map Prod.fst).Nodup)
    (prev' : Option Nat) : Segment (linkPrev links (firstOf xs) prev') prev' xs next := by
  cases xs with
  | nil => trivial
  | cons e xs => exact h.setPrev (List.nodup_cons.1 nodup).1 prev'

theorem Segment.modify_apart (h : Segment links prev xs next) {id : Nat}
    (apart : id ∉ xs.map Prod.fst) (change : Link → Link) :
    Segment (links.modify id change) prev xs next := by
  refine h.congr fun e member => ?_
  rw [Array.getElem?_modify, if_neg]
  rintro rfl
  exact apart (List.mem_map.2 ⟨e, member, rfl⟩)

theorem Segment.setPrev_apart (h : Segment links prev xs next) {id : Nat}
    (apart : id ∉ xs.map Prod.fst) (prev' : Option Nat) :
    Segment (Chain.setPrev links id prev') prev xs next :=
  h.modify_apart apart fun l => { l with prev := prev' }

theorem Segment.linkNext_apart (h : Segment links prev xs next) {at? : Option Nat}
    (apart : ∀ p, at? = some p → p ∉ xs.map Prod.fst) (next' : Option Nat) :
    Segment (linkNext links at? next') prev xs next := by
  cases at? with
  | none => exact h
  | some p => exact h.modify_apart (apart p rfl) fun l => { l with next := next' }

theorem Segment.linkPrev_apart (h : Segment links prev xs next) {at? : Option Nat}
    (apart : ∀ n, at? = some n → n ∉ xs.map Prod.fst) (prev' : Option Nat) :
    Segment (linkPrev links at? prev') prev xs next := by
  cases at? with
  | none => exact h
  | some n => exact h.setPrev_apart (apart n rfl) prev'

/-- The entries of a chain, in order. -/
structure Holds (c : Chain) (xs : List (Nat × Instruction)) : Prop where
  length : c.length = xs.length
  head : c.head = firstOf xs
  tail : c.tail = lastOf xs
  nodup : (xs.map Prod.fst).Nodup
  inside : ∀ e ∈ xs, e.1 < c.links.size
  linked : Segment c.links none xs none

variable {c : Chain}

theorem Holds.fresh (h : c.Holds xs) : c.links.size ∉ xs.map Prod.fst := by
  intro member
  obtain ⟨e, among, same⟩ := List.mem_map.1 member
  have lt := h.inside e among
  omega

theorem listFrom_eq (h : Segment c.links prev xs none) :
    c.listFrom xs.length (firstOf xs) = xs := by
  induction xs generalizing prev with
  | nil => rfl
  | cons e xs ih =>
    obtain ⟨here, rest⟩ := h
    rw [Option.or_none] at here
    have live : c.live? e.1 = some ⟨some e.2, prev, firstOf xs⟩ := by
      rw [live?, here]
      rfl
    change c.listFrom (xs.length + 1) (some e.1) = e :: xs
    simp only [listFrom, live, ih rest]

theorem Holds.toList_eq (h : c.Holds xs) : c.toList = xs := by
  rw [toList, h.length, h.head, listFrom_eq h.linked]

theorem holds_empty : empty.Holds [] :=
  ⟨rfl, rfl, rfl, List.nodup_nil, by simp, trivial⟩

theorem Holds.linked_grown (h : c.Holds xs) (l : Link) :
    Segment (c.links.push l) none xs none := by
  apply h.linked.congr
  intro e member
  rw [Array.getElem?_push, if_neg (Nat.ne_of_lt (h.inside e member))]

theorem linked_push {insn : Instruction} {id : Nat} (linked : Segment links none xs none)
    (nodup : (xs.map Prod.fst).Nodup) (fresh : id ∉ xs.map Prod.fst)
    (new : links[id]? = some ⟨some insn, lastOf xs, none⟩) :
    Segment (linkNext links (lastOf xs) (some id)) none (xs ++ [(id, insn)]) none := by
  have last : Segment links (lastOf xs) [(id, insn)] none := ⟨new, trivial⟩
  refine segment_append.2 ⟨linked.linkNext_last nodup (some id), ?_⟩
  rw [Option.or_none]
  refine last.linkNext_apart (fun p before among => ?_) (some id)
  obtain rfl : p = id := by simpa using among
  exact fresh (mem_of_lastOf before)

theorem Holds.push (h : c.Holds xs) (insn : Instruction) :
    (c.push insn).Holds (xs ++ [(c.links.size, insn)]) := by
  have new : (c.links.push ⟨some insn, c.tail, none⟩)[c.links.size]? =
      some ⟨some insn, lastOf xs, none⟩ := by
    rw [Array.getElem?_push, if_pos rfl, h.tail]
  have linked := linked_push (h.linked_grown _) h.nodup h.fresh new
  refine ⟨?_, ?_, ?_, ?_, ?_, ?_⟩
  · simp [Chain.push, h.length]
  · rw [firstOf_append, ← h.head]
    simp only [Chain.push, h.tail]
    cases xs with
    | nil => simp [lastOf, h.head, firstOf]
    | cons e xs =>
      rw [lastOf_cons, h.head]
      cases lastOf xs <;> rfl
  · rw [lastOf_concat]
    rfl
  · rw [List.map_append]
    exact List.nodup_append'.2 ⟨h.nodup, by simp, by simpa using h.fresh⟩
  · intro e member
    rw [links_push_size]
    rcases List.mem_append.1 member with old | new
    · exact Nat.lt_succ_of_lt (h.inside e old)
    · rw [List.mem_singleton.1 new]
      exact Nat.lt_succ_self _
  · simp only [Chain.push]
    rw [h.tail] at linked ⊢
    exact linked

theorem linked_insertBefore {e : Nat × Instruction} {insn : Instruction} {id : Nat}
    (linked : Segment links none (xs ++ e :: ys) none)
    (nodup : ((xs ++ e :: ys).map Prod.fst).Nodup) (fresh : id ∉ (xs ++ e :: ys).map Prod.fst)
    (new : links[id]? = some ⟨some insn, lastOf xs, some e.1⟩) :
    Segment (linkNext (setPrev links e.1 (some id)) (lastOf xs) (some id)) none
      (xs ++ (id, insn) :: e :: ys) none := by
  rw [List.map_append, List.nodup_append', List.map_cons] at nodup
  obtain ⟨before, behind, apart⟩ := nodup
  rw [List.map_append, List.map_cons, List.mem_append, not_or] at fresh
  obtain ⟨notBefore, notBehind⟩ := fresh
  rw [segment_append, Option.or_none] at linked
  obtain ⟨left, right⟩ := linked
  have middle : Segment links (lastOf xs) [(id, insn)] (some e.1) := ⟨new, trivial⟩
  have outside : e.1 ∉ xs.map Prod.fst := fun among => apart among List.mem_cons_self
  have other : e.1 ∉ [(id, insn)].map Prod.fst := by
    simpa using fun same : e.1 = id => notBehind (same ▸ List.mem_cons_self)
  -- What comes behind hangs on the new link, and what comes before leads there.
  have left := (left.setPrev_apart outside (some id)).linkNext_last before (some id)
  have middle := (middle.setPrev_apart other (some id)).linkNext_apart (fun p last among => by
    obtain rfl : p = id := by simpa using among
    exact notBefore (mem_of_lastOf last)) (some id)
  have right := (right.setPrev (List.nodup_cons.1 behind).1 (some id)).linkNext_apart
    (fun p last among => apart (mem_of_lastOf last) among) (some id)
  refine segment_append.2 ⟨left, ?_, right⟩
  rw [Option.or_none]
  exact middle.1

theorem Holds.live (h : c.Holds (xs ++ e :: ys)) :
    c.live? e.1 = some ⟨some e.2, lastOf xs, firstOf ys⟩ := by
  have here := (segment_append.1 h.linked).2.1
  rw [Option.or_none, Option.or_none] at here
  rw [live?, here]
  rfl

theorem Holds.insertBefore {e : Nat × Instruction} (h : c.Holds (xs ++ e :: ys))
    (insn : Instruction) : ∃ c', c.insertBefore? e.1 insn = some c' ∧
      c'.Holds (xs ++ (c.links.size, insn) :: e :: ys) := by
  have new : (c.links.push ⟨some insn, lastOf xs, some e.1⟩)[c.links.size]? =
      some ⟨some insn, lastOf xs, some e.1⟩ := by
    rw [Array.getElem?_push, if_pos rfl]
  have linked := linked_insertBefore (h.linked_grown _) h.nodup h.fresh new
  obtain ⟨c', made, links, head, tail, length⟩ : ∃ c', c.insertBefore? e.1 insn = some c' ∧
      Segment c'.links none (xs ++ (c.links.size, insn) :: e :: ys) none ∧
      c'.head = firstOf (xs ++ (c.links.size, insn) :: e :: ys) ∧
      c'.tail = c.tail ∧ c'.length = c.length + 1 := by
    rw [insertBefore?, h.live]
    refine ⟨_, rfl, linked, ?_, rfl, rfl⟩
    cases xs with
    | nil => rfl
    | cons x xs =>
      simp only [lastOf_cons]
      cases lastOf xs <;> exact h.head
  refine ⟨c', made, ?_, head, ?_, ?_, ?_, links⟩
  · rw [length, h.length]
    simp
    omega
  · rw [tail, h.tail]
    simp [lastOf, List.getLast?_append]
  · have fresh := h.fresh
    have distinct := h.nodup
    rw [List.map_append, List.map_cons, List.mem_append, List.mem_cons] at fresh
    rw [List.map_append, List.map_cons] at distinct
    rw [List.map_append, List.map_cons, List.map_cons, List.nodup_middle, List.nodup_cons,
      List.mem_append, List.mem_cons]
    exact ⟨fresh, distinct⟩
  · intro e' member
    rw [size_insertBefore made]
    rcases List.mem_append.1 member with left | right
    · exact Nat.lt_succ_of_lt (h.inside e' (by simp [left]))
    · rcases List.mem_cons.1 right with rfl | old
      · exact Nat.lt_succ_self _
      · exact Nat.lt_succ_of_lt (h.inside e' (by simp [List.mem_cons.1 old]))

end ClientScript.Chain
