import ClientScript.Proofs.Chain.Walk

/-!
Histories of a chain. Whatever has been appended, put in front of others, replaced and taken out, a
chain answers as a list of numbered instructions does, and its numbers are all different. A walk
takes entries from either end of what is left between them. Main statement: after any changes the
chain and the list have given the same answers, and the chain shows the entries of the list.
-/
namespace ClientScript.Chain

inductive Change where
  | push (insn : Instruction)
  | insertBefore (anchor : Nat) (insn : Instruction)
  | replace (id : Nat) (insn : Instruction)
  | remove (id : Nat)

/-- What a change answers: the number of a new entry, or the instruction that is gone. A number that
    no entry has is refused. -/
inductive Answer where
  | issued (id : Nat)
  | gone (insn : Instruction)
  | refused

def Answer.issued? : Answer → Option Nat
  | .issued id => some id
  | _ => none

/-- A change of a chain. What is refused leaves the chain as it is. -/
def perform (c : Chain) : Change → Answer × Chain
  | .push insn => (.issued c.links.size, c.push insn)
  | .insertBefore anchor insn =>
    match c.insertBefore? anchor insn with
    | some c' => (.issued c.links.size, c')
    | none => (.refused, c)
  | .replace id insn =>
    match c.get? id, c.replace? id insn with
    | some old, some c' => (.gone old, c')
    | _, _ => (.refused, c)
  | .remove id =>
    match c.remove? id with
    | some (insn, c') => (.gone insn, c')
    | none => (.refused, c)

def performAll (c : Chain) : List Change → List Answer × Chain
  | [] => ([], c)
  | change :: rest =>
    let (answer, c') := c.perform change
    let (answers, c'') := c'.performAll rest
    (answer :: answers, c'')

/-- A list of numbered instructions, and how many numbers have been given out. -/
structure Listing where
  entries : List (Nat × Instruction)
  issued : Nat

namespace Listing

def empty : Listing := ⟨[], 0⟩

def find? (l : Listing) (id : Nat) : Option Instruction :=
  (l.entries.find? (·.1 == id)).map Prod.snd

def perform (l : Listing) : Change → Answer × Listing
  | .push insn => (.issued l.issued, ⟨l.entries ++ [(l.issued, insn)], l.issued + 1⟩)
  | .insertBefore anchor insn =>
    match l.find? anchor with
    | some _ =>
      (.issued l.issued,
        ⟨l.entries.flatMap fun e => if e.1 = anchor then [(l.issued, insn), e] else [e],
          l.issued + 1⟩)
    | none => (.refused, l)
  | .replace id insn =>
    match l.find? id with
    | some old =>
      (.gone old, ⟨l.entries.map fun e => if e.1 = id then (id, insn) else e, l.issued⟩)
    | none => (.refused, l)
  | .remove id =>
    match l.find? id with
    | some insn => (.gone insn, ⟨l.entries.filter (·.1 != id), l.issued⟩)
    | none => (.refused, l)

def performAll (l : Listing) : List Change → List Answer × Listing
  | [] => ([], l)
  | change :: rest =>
    let (answer, l') := l.perform change
    let (answers, l'') := l'.performAll rest
    (answer :: answers, l'')

variable {l : Listing} {xs ys : List (Nat × Instruction)} {e : Nat × Instruction} {id : Nat}

theorem find?_eq_none : l.find? id = none ↔ id ∉ l.entries.map Prod.fst := by
  rw [find?, Option.map_eq_none_iff, List.find?_eq_none, List.mem_map]
  constructor
  · rintro none ⟨e, member, rfl⟩
    exact none e member (beq_self_eq_true _)
  · rintro absent e member same
    exact absent ⟨e, member, by simpa using same⟩

theorem split_of_find? {insn : Instruction} (found : l.find? id = some insn) :
    ∃ xs ys, l.entries = xs ++ (id, insn) :: ys := by
  obtain ⟨⟨n, i⟩, at_id, rfl⟩ := Option.map_eq_some_iff.1 found
  obtain ⟨same, xs, ys, split, -⟩ := List.find?_eq_some_iff_append.1 at_id
  obtain rfl : n = id := by simpa using same
  exact ⟨xs, ys, split⟩

variable (nodup : ((xs ++ e :: ys).map Prod.fst).Nodup)
include nodup

theorem other_of_nodup : ∀ e' ∈ xs ++ ys, e'.1 ≠ e.1 := by
  rw [List.map_append, List.map_cons, List.nodup_middle, List.nodup_cons, ← List.map_append]
    at nodup
  intro e' member same
  exact nodup.1 (same ▸ List.mem_map.2 ⟨e', member, rfl⟩)

theorem flatMap_split (new : Nat × Instruction) :
    ((xs ++ e :: ys).flatMap fun e' => if e'.1 = e.1 then [new, e'] else [e']) =
      xs ++ new :: e :: ys := by
  have other := other_of_nodup nodup
  have same {zs : List (Nat × Instruction)} (sub : zs ⊆ xs ++ ys) :
      (zs.flatMap fun e' => if e'.1 = e.1 then [new, e'] else [e']) = zs := by
    induction zs with
    | nil => rfl
    | cons z zs ih =>
      obtain ⟨here, rest⟩ := List.cons_subset.1 sub
      rw [List.flatMap_cons, if_neg (other z here), ih rest]
      rfl
  rw [List.flatMap_append, List.flatMap_cons, if_pos rfl, same (List.subset_append_left xs ys),
    same (List.subset_append_right xs ys)]
  rfl

theorem map_split (new : Nat × Instruction) :
    ((xs ++ e :: ys).map fun e' => if e'.1 = e.1 then new else e') = xs ++ new :: ys := by
  have other := other_of_nodup nodup
  have same {zs : List (Nat × Instruction)} (sub : zs ⊆ xs ++ ys) :
      (zs.map fun e' => if e'.1 = e.1 then new else e') = zs := by
    rw [List.map_congr_left fun e' member => if_neg (other e' (sub member)), List.map_id']
  rw [List.map_append, List.map_cons, if_pos rfl, same (List.subset_append_left xs ys),
    same (List.subset_append_right xs ys)]

theorem filter_split : (xs ++ e :: ys).filter (·.1 != e.1) = xs ++ ys := by
  have other := other_of_nodup nodup
  rw [List.filter_append, List.filter_cons_of_neg (by simp), ← List.filter_append,
    List.filter_eq_self]
  intro e' member
  simpa using other e' member

end Listing

/-- A chain is what a list of instructions says. -/
structure Follows (c : Chain) (l : Listing) : Prop where
  listed : c.Listed l.entries
  issued : c.links.size = l.issued

theorem follows_empty : Chain.empty.Follows .empty := ⟨listed_empty, rfl⟩

variable {c : Chain} {l : Listing}

theorem Follows.get? (h : c.Follows l) (id : Nat) : c.get? id = l.find? id := by
  cases found : l.find? id with
  | none => exact h.listed.absent id (Listing.find?_eq_none.1 found)
  | some insn =>
    obtain ⟨xs, ys, split⟩ := Listing.split_of_find? found
    have live := (split ▸ h.listed.holds).live
    rw [Chain.get?, live]
    rfl

theorem Follows.perform (h : c.Follows l) (change : Change) :
    (c.perform change).1 = (l.perform change).1 ∧
      (c.perform change).2.Follows (l.perform change).2 := by
  obtain ⟨entries, issued⟩ := l
  have nodup := h.listed.holds.nodup
  have size : c.links.size = issued := h.issued
  cases change with
  | push insn =>
    refine ⟨congrArg Answer.issued size, ?_, ?_⟩
    · exact size ▸ h.listed.push insn
    · exact (links_push_size c insn).trans (congrArg (· + 1) size)
  | insertBefore anchor insn =>
    have get := h.get? anchor
    cases found : Listing.find? ⟨entries, issued⟩ anchor with
    | none =>
      have dead := live?_eq_none.2 (get.trans found)
      simp only [Chain.perform, insertBefore?, dead, Listing.perform, found]
      exact ⟨trivial, h⟩
    | some old =>
      obtain ⟨xs, ys, rfl⟩ := Listing.split_of_find? found
      obtain ⟨c', made, listed⟩ := h.listed.insertBefore insn
      simp only [Chain.perform, made, Listing.perform, found]
      refine ⟨congrArg Answer.issued size, ?_, ?_⟩
      · rw [Listing.flatMap_split nodup]
        exact size ▸ listed
      · exact (size_insertBefore made).trans (congrArg (· + 1) size)
  | replace id insn =>
    have get := h.get? id
    cases found : Listing.find? ⟨entries, issued⟩ id with
    | none =>
      simp only [Chain.perform, get.trans found, Listing.perform, found]
      exact ⟨trivial, h⟩
    | some old =>
      obtain ⟨xs, ys, rfl⟩ := Listing.split_of_find? found
      obtain ⟨c', put, listed, same⟩ := h.listed.replace insn
      simp only [Chain.perform, get.trans found, put, Listing.perform, found]
      refine ⟨trivial, ?_, same.trans size⟩
      rw [Listing.map_split nodup]
      exact listed
  | remove id =>
    have get := h.get? id
    cases found : Listing.find? ⟨entries, issued⟩ id with
    | none =>
      have dead := live?_eq_none.2 (get.trans found)
      simp only [Chain.perform, remove?, dead, Listing.perform, found]
      exact ⟨trivial, h⟩
    | some old =>
      obtain ⟨xs, ys, rfl⟩ := Listing.split_of_find? found
      obtain ⟨c', taken, listed, same⟩ := h.listed.remove
      simp only [Chain.perform, taken, Listing.perform, found]
      refine ⟨trivial, ?_, same.trans size⟩
      rw [Listing.filter_split nodup]
      exact listed

theorem Follows.performAll (h : c.Follows l) (changes : List Change) :
    (c.performAll changes).1 = (l.performAll changes).1 ∧
      (c.performAll changes).2.Follows (l.performAll changes).2 := by
  induction changes generalizing c l with
  | nil => exact ⟨rfl, h⟩
  | cons change rest ih =>
    obtain ⟨answer, next⟩ := h.perform change
    obtain ⟨answers, last⟩ := ih next
    exact ⟨congrArg₂ List.cons answer answers, last⟩

theorem issued_mono (l : Listing) (change : Change) :
    ((l.perform change).1.issued? = none ∧ (l.perform change).2.issued = l.issued) ∨
      ((l.perform change).1.issued? = some l.issued ∧
        (l.perform change).2.issued = l.issued + 1) := by
  cases change with
  | push insn => exact .inr ⟨rfl, rfl⟩
  | insertBefore anchor insn =>
    rw [Listing.perform]
    cases l.find? anchor with
    | none => exact .inl ⟨rfl, rfl⟩
    | some old => exact .inr ⟨rfl, rfl⟩
  | replace id insn =>
    rw [Listing.perform]
    cases l.find? id <;> exact .inl ⟨rfl, rfl⟩
  | remove id =>
    rw [Listing.perform]
    cases l.find? id <;> exact .inl ⟨rfl, rfl⟩

theorem issued_performAll (l : Listing) (changes : List Change) :
    ((l.performAll changes).1.filterMap Answer.issued?) =
      List.range' l.issued ((l.performAll changes).2.issued - l.issued) ∧
    l.issued ≤ (l.performAll changes).2.issued := by
  induction changes generalizing l with
  | nil => exact ⟨by simp [Listing.performAll], Nat.le_refl _⟩
  | cons change rest ih =>
    obtain ⟨later, le⟩ := ih (l.perform change).2
    rcases issued_mono l change with ⟨none, same⟩ | ⟨one, more⟩
    · rw [same] at later le
      exact ⟨by rw [Listing.performAll, List.filterMap_cons_none none]; exact later, le⟩
    · rw [more] at later le
      refine ⟨?_, Nat.le_of_succ_le le⟩
      rw [Listing.performAll, List.filterMap_cons_some one]
      change _ :: List.filterMap _ ((l.perform change).2.performAll rest).1 =
        List.range' _ (((l.perform change).2.performAll rest).2.issued - l.issued)
      rw [later, ← List.range'_succ]
      congr 1
      omega

/-- What a chain shows of its entries. -/
structure Shows (c : Chain) (xs : List (Nat × Instruction)) : Prop where
  toList : c.toList = xs
  head : c.head = firstOf xs
  tail : c.tail = lastOf xs
  length : c.length = xs.length
  distinct : (xs.map Prod.fst).Nodup
  present : ∀ before e behind, xs = before ++ e :: behind →
    c.get? e.1 = some e.2 ∧ c.next? e.1 = firstOf behind ∧ c.prev? e.1 = lastOf before
  absent : ∀ id, id ∉ xs.map Prod.fst → c.get? id = none ∧ c.next? id = none ∧ c.prev? id = none
  walks : ∀ ends, ∃ middle,
    xs = (c.visited ends).fronts ++ middle ++ (c.visited ends).backs.reverse ∧
      (c.visited ends).rest.remaining = middle.length ∧
      middle.length = xs.length - ends.length

theorem Listed.shows {xs : List (Nat × Instruction)} (h : c.Listed xs) : c.Shows xs where
  toList := h.holds.toList_eq
  head := h.holds.head
  tail := h.holds.tail
  length := h.holds.length
  distinct := h.holds.nodup
  present := by
    rintro before e behind rfl
    rw [get?, next?, prev?, h.holds.live]
    exact ⟨rfl, rfl, rfl⟩
  absent := by
    intro id other
    have dead := live?_eq_none.2 (h.absent id other)
    rw [get?, next?, prev?, dead]
    exact ⟨rfl, rfl, rfl⟩
  walks := h.holds.visited

/-- A chain answers as a list of numbered instructions does, never gives a number out twice, and
    shows the entries of the list. -/
theorem refines_list (changes : List Change) :
    (empty.performAll changes).1 = (Listing.empty.performAll changes).1 ∧
    ((empty.performAll changes).1.filterMap Answer.issued?).Nodup ∧
    (empty.performAll changes).2.Shows (Listing.empty.performAll changes).2.entries := by
  obtain ⟨same, follows⟩ := follows_empty.performAll changes
  refine ⟨same, ?_, follows.listed.shows⟩
  rw [same, (issued_performAll .empty changes).1]
  exact List.nodup_range'

end ClientScript.Chain
