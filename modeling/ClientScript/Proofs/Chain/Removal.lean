import ClientScript.Proofs.Chain.Segment

/-!
Taking entries out of a chain. The neighbours of a removed entry are linked to each other, and its
number has nothing behind it from then on. Putting another instruction in the place of one changes
no other entry. Main statement: numbers that no entry has stay without an instruction.
-/
namespace ClientScript.Chain

variable {links : Array Link} {prev next : Option Nat} {xs ys : List (Nat × Instruction)}
variable {e : Nat × Instruction} {c c' : Chain} {id : Nat} {insn : Instruction}

theorem insn_linkNext (links : Array Link) (at? : Option Nat) (next : Option Nat) (id : Nat) :
    (linkNext links at? next)[id]?.bind Link.insn = links[id]?.bind Link.insn := by
  cases at? with
  | none => rfl
  | some p => exact insn_setNext ..

theorem insn_linkPrev (links : Array Link) (at? : Option Nat) (prev : Option Nat) (id : Nat) :
    (linkPrev links at? prev)[id]?.bind Link.insn = links[id]?.bind Link.insn := by
  cases at? with
  | none => rfl
  | some n => exact insn_setPrev ..

theorem size_linkNext (links : Array Link) (at? : Option Nat) (next : Option Nat) :
    (linkNext links at? next).size = links.size := by
  cases at? <;> simp [linkNext, setNext]

theorem size_linkPrev (links : Array Link) (at? : Option Nat) (prev : Option Nat) :
    (linkPrev links at? prev).size = links.size := by
  cases at? <;> simp [linkPrev, setPrev]

theorem linked_remove (linked : Segment links none (xs ++ e :: ys) none)
    (nodup : ((xs ++ e :: ys).map Prod.fst).Nodup) (gone : Link → Link) :
    Segment (linkPrev (linkNext (links.modify e.1 gone) (lastOf xs) (firstOf ys)) (firstOf ys)
      (lastOf xs)) none (xs ++ ys) none := by
  rw [List.map_append, List.nodup_append', List.map_cons, List.nodup_cons] at nodup
  obtain ⟨before, ⟨first, behind⟩, apart⟩ := nodup
  rw [segment_append, Segment] at linked
  obtain ⟨left, -, right⟩ := linked
  have outside : e.1 ∉ xs.map Prod.fst := fun among => apart among List.mem_cons_self
  have left := (left.modify_apart outside gone).linkNext_last before (firstOf ys)
  have right := (right.modify_apart first gone).linkNext_apart (fun p last among =>
    apart (mem_of_lastOf last) (List.mem_cons_of_mem _ among)) (firstOf ys)
  rw [segment_append, Option.or_none, Option.or_none]
  refine ⟨left.linkPrev_apart (fun n first among => ?_) (lastOf xs), ?_⟩
  · exact apart among (List.mem_cons_of_mem _ (mem_of_firstOf first))
  · exact right.linkPrev_first behind (lastOf xs)

theorem Holds.remove (h : c.Holds (xs ++ e :: ys)) : ∃ c', c.remove? e.1 = some (e.2, c') ∧
    c'.Holds (xs ++ ys) ∧ c'.links.size = c.links.size ∧
    ∀ id, c'.get? id = if id = e.1 then none else c.get? id := by
  have linked := linked_remove h.linked h.nodup fun _ => ⟨none, none, none⟩
  have sub : (xs ++ ys).Sublist (xs ++ e :: ys) :=
    (List.sublist_cons_self e ys).append_left xs
  obtain ⟨c', taken, links, head, tail, length⟩ : ∃ c', c.remove? e.1 = some (e.2, c') ∧
      c'.links = linkPrev (linkNext (c.links.modify e.1 fun _ => ⟨none, none, none⟩) (lastOf xs)
        (firstOf ys)) (firstOf ys) (lastOf xs) ∧
      c'.head = firstOf (xs ++ ys) ∧ c'.tail = lastOf (xs ++ ys) ∧
      c'.length = c.length - 1 := by
    rw [remove?, h.live]
    refine ⟨_, rfl, rfl, ?_, ?_, rfl⟩
    · cases xs with
      | nil => rfl
      | cons x xs =>
        simp only [lastOf_cons]
        cases lastOf xs <;> exact h.head
    · cases ys with
      | nil => simp [firstOf]
      | cons y ys => simp [firstOf, h.tail, lastOf_append, lastOf_cons]
  have size : c'.links.size = c.links.size := by
    rw [links, size_linkPrev, size_linkNext, Array.size_modify]
  refine ⟨c', taken, ⟨?_, head, tail, h.nodup.sublist (sub.map _), ?_, links ▸ linked⟩, size, ?_⟩
  · rw [length, h.length]
    simp
  · intro e' member
    rw [size]
    exact h.inside e' (sub.subset member)
  · intro id
    rw [get?_eq, get?_eq, links, insn_linkPrev, insn_linkNext, Array.getElem?_modify]
    by_cases same : id = e.1
    · subst same
      rw [if_pos rfl, if_pos rfl]
      cases c.links[e.1]? <;> rfl
    · rw [if_neg (Ne.symm same), if_neg same]

theorem Holds.replace (h : c.Holds (xs ++ e :: ys)) (insn : Instruction) :
    ∃ c', c.replace? e.1 insn = some c' ∧ c'.Holds (xs ++ (e.1, insn) :: ys) ∧
    c'.links.size = c.links.size ∧
    ∀ id, c'.get? id = if id = e.1 then some insn else c.get? id := by
  have same : (xs ++ (e.1, insn) :: ys).map Prod.fst = (xs ++ e :: ys).map Prod.fst := by simp
  have here := (segment_append.1 h.linked).2.1
  refine ⟨_, by rw [replace?, h.live]; rfl, ⟨?_, ?_, ?_, same ▸ h.nodup, ?_, ?_⟩, ?_, ?_⟩
  · simp [h.length]
  · rw [h.head, firstOf_append, firstOf_append]
    rfl
  · rw [h.tail, lastOf_append, lastOf_append, lastOf_cons, lastOf_cons]
  · intro e' member
    rw [Array.size_modify]
    rcases List.mem_append.1 member with left | right
    · exact h.inside e' (by simp [left])
    · rcases List.mem_cons.1 right with rfl | right
      · exact h.inside e (by simp)
      · exact h.inside e' (by simp [right])
  · have nodup := h.nodup
    rw [List.map_append, List.nodup_append', List.map_cons, List.nodup_cons] at nodup
    obtain ⟨-, ⟨first, -⟩, apart⟩ := nodup
    obtain ⟨left, -, right⟩ := segment_append.1 h.linked
    have outside : e.1 ∉ xs.map Prod.fst := fun among => apart among List.mem_cons_self
    let put : Link → Link := fun l => { l with insn := some insn }
    refine segment_append.2 ⟨left.modify_apart outside put, ?_, right.modify_apart first put⟩
    rw [Array.getElem?_modify, if_pos rfl, here]
    rfl
  · rw [Array.size_modify]
  · intro id
    rw [get?_eq, get?_eq, Array.getElem?_modify]
    by_cases same : id = e.1
    · subst same
      rw [if_pos rfl, if_pos rfl, here]
      rfl
    · rw [if_neg (Ne.symm same), if_neg same]

/-- The entries of a chain, and nothing behind any other number. -/
structure Listed (c : Chain) (xs : List (Nat × Instruction)) : Prop where
  holds : c.Holds xs
  absent : ∀ id, id ∉ xs.map Prod.fst → c.get? id = none

theorem listed_empty : empty.Listed [] := ⟨holds_empty, fun _ _ => rfl⟩

theorem Listed.push (h : c.Listed xs) (insn : Instruction) :
    (c.push insn).Listed (xs ++ [(c.links.size, insn)]) := by
  refine ⟨h.holds.push insn, fun id other => ?_⟩
  rw [List.map_append, List.mem_append, not_or] at other
  rw [get?_push, if_neg (by simpa using other.2)]
  exact h.absent id other.1

theorem Listed.insertBefore (h : c.Listed (xs ++ e :: ys)) (insn : Instruction) :
    ∃ c', c.insertBefore? e.1 insn = some c' ∧
      c'.Listed (xs ++ (c.links.size, insn) :: e :: ys) := by
  obtain ⟨c', made, holds⟩ := h.holds.insertBefore insn
  refine ⟨c', made, holds, fun id other => ?_⟩
  simp only [List.map_append, List.map_cons, List.mem_append, List.mem_cons, not_or] at other
  rw [get?_insertBefore made, if_neg other.2.1]
  refine h.absent id ?_
  simp only [List.map_append, List.map_cons, List.mem_append, List.mem_cons, not_or]
  exact ⟨other.1, other.2.2⟩

theorem Listed.remove (h : c.Listed (xs ++ e :: ys)) :
    ∃ c', c.remove? e.1 = some (e.2, c') ∧ c'.Listed (xs ++ ys) ∧
      c'.links.size = c.links.size := by
  obtain ⟨c', taken, holds, size, get⟩ := h.holds.remove
  refine ⟨c', taken, ⟨holds, fun id other => ?_⟩, size⟩
  rw [get]
  split
  · rfl
  · rename_i differ
    refine h.absent id ?_
    simp only [List.map_append, List.map_cons, List.mem_append, List.mem_cons, not_or] at other ⊢
    exact ⟨other.1, differ, other.2⟩

theorem Listed.replace (h : c.Listed (xs ++ e :: ys)) (insn : Instruction) :
    ∃ c', c.replace? e.1 insn = some c' ∧ c'.Listed (xs ++ (e.1, insn) :: ys) ∧
      c'.links.size = c.links.size := by
  obtain ⟨c', put, holds, size, get⟩ := h.holds.replace insn
  refine ⟨c', put, ⟨holds, fun id other => ?_⟩, size⟩
  simp only [List.map_append, List.map_cons, List.mem_append, List.mem_cons, not_or] at other
  rw [get, if_neg other.2.1]
  refine h.absent id ?_
  simp only [List.map_append, List.map_cons, List.mem_append, List.mem_cons, not_or]
  exact other

theorem live?_eq_none : c.live? id = none ↔ c.get? id = none := by
  rw [get?_eq, live?]
  cases c.links[id]? with
  | none => simp
  | some l => cases found : l.insn <;> simp [Option.filter, found]

end ClientScript.Chain
