import ClientScript.Typing.Store
import Mathlib.Logic.Function.Iterate
import Mathlib.Tactic.ByContra

/-!
What each operation does to what the store shows: its size, its names, and the root, the stack and
the types of each cell. Path compression shows nothing of itself; joining two classes moves all
cells of both to one of the two roots. Whether an operation fails, and how, depends on what the
classes that it is about show of themselves, and on nothing else.
-/
namespace ClientScript.Typings

open Typing

structure Alike (s s' : Typings) : Prop where
  size : s'.size = s.size
  names : s'.names = s.names
  find : ∀ i, s'.find i = s.find i
  stackOf : ∀ i, s'.stackOf i = s.stackOf i
  typesOf : ∀ i, s'.typesOf i = s.typesOf i

/-- `s'` has the classes of `a` and `b` as one, under one of their roots and with these types. -/
structure Joined (s s' : Typings) (a b : Nat) (types : List ValueType) : Prop where
  size : s'.size = s.size
  names : s'.names = s.names
  find : ∃ top, (top = s.find a ∨ top = s.find b) ∧ ∀ i, s'.find i =
    if s.find i = s.find a ∨ s.find i = s.find b then top else s.find i
  stackOf : ∀ i, s'.stackOf i = s.stackOf i
  typesOf : ∀ i, s'.typesOf i =
    if s.find i = s.find a ∨ s.find i = s.find b then types else s.typesOf i

/-- `s'` has other types in the class of `a`. -/
structure Retyped (s s' : Typings) (a : Nat) (types : List ValueType) : Prop where
  size : s'.size = s.size
  names : s'.names = s.names
  find : ∀ i, s'.find i = s.find i
  stackOf : ∀ i, s'.stackOf i = s.stackOf i
  typesOf : ∀ i, s'.typesOf i = if s.find i = s.find a then types else s.typesOf i

structure Grown (s s' : Typings) (stack : StackType) (types : List ValueType) : Prop where
  size : s'.size = s.size + 1
  find : ∀ i, s'.find i = s.find i
  stackOf : ∀ i, i < s.size → s'.stackOf i = s.stackOf i
  typesOf : ∀ i, i < s.size → s'.typesOf i = s.typesOf i
  newStack : s'.stackOf s.size = stack
  newTypes : s'.typesOf s.size = types

variable {s s' s'' : Typings} {a b i : Nat} {types : List ValueType}

theorem Alike.trans (first : Alike s s') (later : Alike s' s'') : Alike s s'' := by
  constructor
  · exact later.size.trans first.size
  · exact later.names.trans first.names
  · intro i; exact (later.find i).trans (first.find i)
  · intro i; exact (later.stackOf i).trans (first.stackOf i)
  · intro i; exact (later.typesOf i).trans (first.typesOf i)

theorem stackOf_eq_of_find {j : Nat} (h : s.find i = s.find j) : s.stackOf i = s.stackOf j := by
  rw [stackOf, stackOf, h]

theorem typesOf_eq_of_find {j : Nat} (h : s.find i = s.find j) : s.typesOf i = s.typesOf j := by
  rw [typesOf, typesOf, h]

theorem Alike.joined (h : Alike s s') (same : s.find a = s.find b) :
    Joined s s' a b (s.typesOf a) := by
  constructor
  · exact h.size
  · exact h.names
  · refine ⟨s.find a, .inl rfl, fun i => ?_⟩
    rw [h.find]
    simp only [← same, or_self]
    split
    · assumption
    · rfl
  · exact h.stackOf
  · intro i
    rw [h.typesOf]
    simp only [← same, or_self]
    split
    · rename_i inClass
      exact typesOf_eq_of_find inClass
    · rfl

theorem Alike.retyped (h : Alike s s') (a : Nat) : Retyped s s' a (s.typesOf a) := by
  constructor
  · exact h.size
  · exact h.names
  · exact h.find
  · exact h.stackOf
  · intro i
    rw [h.typesOf]
    split
    · rename_i inClass
      exact typesOf_eq_of_find inClass
    · rfl

theorem Joined.symm (h : Joined s s' a b types) : Joined s s' b a types := by
  constructor
  · exact h.size
  · exact h.names
  · obtain ⟨top, one, find⟩ := h.find
    exact ⟨top, one.symm, fun i => by rw [find i]; simp only [or_comm]⟩
  · exact h.stackOf
  · intro i
    rw [h.typesOf i]
    simp only [or_comm]

theorem Joined.find_eq_iff {j : Nat} (h : Joined s s' a b types) : s'.find i = s'.find j ↔
    s.find i = s.find j ∨
      (s.find i = s.find a ∨ s.find i = s.find b) ∧
        (s.find j = s.find a ∨ s.find j = s.find b) := by
  obtain ⟨top, one, find⟩ := h.find
  rw [find i, find j]
  by_cases hi : s.find i = s.find a ∨ s.find i = s.find b
  · by_cases hj : s.find j = s.find a ∨ s.find j = s.find b
    · simp [hi, hj]
    · simp only [hi, hj, if_true, if_false, and_false, or_false]
      constructor
      · intro atTop
        exact absurd (one.imp atTop.symm.trans atTop.symm.trans) hj
      · intro same
        exact absurd (same ▸ hi) hj
  · by_cases hj : s.find j = s.find a ∨ s.find j = s.find b
    · simp only [hi, hj, if_true, if_false, false_and, or_false]
      constructor
      · intro atTop
        exact absurd (one.imp atTop.trans atTop.trans) hi
      · intro same
        exact absurd (same ▸ hj) hi
    · simp [hi, hj]

theorem Joined.of_alike (first : Alike s s') (later : Joined s' s'' a b types) :
    Joined s s'' a b types := by
  constructor
  · exact later.size.trans first.size
  · exact later.names.trans first.names
  · simpa only [first.find] using later.find
  · intro i; exact (later.stackOf i).trans (first.stackOf i)
  · simpa only [first.find, first.typesOf] using later.typesOf

theorem Retyped.of_alike (first : Alike s s') (later : Retyped s' s'' a types) :
    Retyped s s'' a types := by
  constructor
  · exact later.size.trans first.size
  · exact later.names.trans first.names
  · intro i; exact (later.find i).trans (first.find i)
  · intro i; exact (later.stackOf i).trans (first.stackOf i)
  · simpa only [first.find, first.typesOf] using later.typesOf

theorem find_find (s : Typings) (i : Nat) : s.find (s.find i) = s.find i :=
  rootOf_eq_self (parentOf_rootOf s.climbs i)

theorem find_of_size_le (h : s.size ≤ i) : s.find i = i := by
  apply rootOf_eq_self
  have none : s.cells[i]? = none := Array.getElem?_eq_none h
  simp [parentOf, none]

theorem parentOf_lt (h : i < s.size) : parentOf s.cells i < s.size := by
  by_cases root : parentOf s.cells i = i
  · rw [root]
    exact h
  · by_contra outside
    have none : s.cells[parentOf s.cells i]? = none :=
      Array.getElem?_eq_none (Nat.le_of_not_lt outside)
    have up := s.climbs i root
    simp [rankOf, none] at up

theorem find_lt (h : i < s.size) : s.find i < s.size := by
  unfold find
  fun_induction rootOf s.cells s.climbs i with
  | case1 => exact h
  | case2 i _ ih => exact ih (parentOf_lt h)

theorem find_eq_iterate (s : Typings) (i : Nat) : ∃ n, (parentOf s.cells)^[n] i = s.find i := by
  unfold find
  fun_induction rootOf s.cells s.climbs i with
  | case1 i => exact ⟨0, rfl⟩
  | case2 i _ ih =>
    obtain ⟨n, steps⟩ := ih
    exact ⟨n + 1, steps⟩

theorem alike_compress (s : Typings) (i : Nat) : Alike s (s.compress i) := by
  have find : ∀ j, (s.compress i).find j = s.find j := by
    apply rootOf_eq
    · intro j
      change s.find (parentOf (flatten s.cells s.climbs i) j) = s.find j
      rw [parentOf_flatten]
      split
      · rename_i onWay
        exact (find_find s i).trans (rootOf_of_mem_wayUp onWay).symm
      · exact rootOf_parentOf s.climbs j
    · intro j top
      change parentOf (flatten s.cells s.climbs i) j = j at top
      rw [parentOf_flatten] at top
      split at top
      · rename_i onWay
        have below := rankOf_lt_of_mem_wayUp onWay
        rw [top] at below
        exact absurd below (Nat.lt_irrefl _)
      · exact rootOf_eq_self top
  constructor
  · exact size_flatten s.climbs i
  · rfl
  · exact find
  · intro j
    rw [stackOf, find, stackOf, compress, getElem?_flatten, Option.map_map]
    congr 2
    funext c
    simp only [Function.comp]
    split <;> rfl
  · intro j
    rw [typesOf, find, typesOf, compress, getElem?_flatten, Option.map_map]
    congr 2
    funext c
    simp only [Function.comp]
    split <;> rfl

theorem grown_grow (s : Typings) (stack : StackType) (types : List ValueType) :
    Grown s (s.grow stack types) stack types := by
  have find : ∀ i, (s.grow stack types).find i = s.find i := by
    apply rootOf_eq
    · intro i
      change s.find (parentOf (pushed s.cells stack types) i) = s.find i
      rw [parentOf_pushed]
      exact rootOf_parentOf s.climbs i
    · intro i top
      change parentOf (pushed s.cells stack types) i = i at top
      rw [parentOf_pushed] at top
      exact rootOf_eq_self top
  have old : ∀ i, i < s.size → (pushed s.cells stack types)[s.find i]? = s.cells[s.find i]? := by
    intro i inside
    have below : s.find i ≠ s.cells.size := Nat.ne_of_lt (find_lt inside)
    rw [pushed, Array.getElem?_push, if_neg below]
  have own : s.find s.size = s.size := find_of_size_le (Nat.le_refl _)
  have new : (pushed s.cells stack types)[s.size]? = some ⟨s.cells.size, 0, stack, types⟩ :=
    Array.getElem?_push_size
  constructor
  · exact Array.size_push ..
  · exact find
  · intro i inside
    rw [stackOf, find, stackOf]
    exact congrArg (fun c => (Option.map Cell.stack c).getD .int) (old i inside)
  · intro i inside
    rw [typesOf, find, typesOf]
    exact congrArg (fun c => (Option.map Cell.types c).getD []) (old i inside)
  · rw [stackOf, find, own]
    exact congrArg (fun c => (Option.map Cell.stack c).getD .int) new
  · rw [typesOf, find, own]
    exact congrArg (fun c => (Option.map Cell.types c).getD []) new

theorem declare_of_some {t : TypeVar} (h : s.cell? t = some i) (stack : StackType)
    (types : List ValueType) : s.declare t stack types = s := by
  rw [declare, h]

theorem grown_declare {t : TypeVar} (h : s.cell? t = none) (stack : StackType)
    (types : List ValueType) : Grown s (s.declare t stack types) stack types := by
  rw [declare, h]
  have grown := grown_grow s stack types
  exact ⟨grown.size, grown.find, grown.stackOf, grown.typesOf, grown.newStack, grown.newTypes⟩

theorem retyped_retype (inside : a < s.size) (types : List ValueType) :
    Retyped s (s.retype (s.find a) types) a types := by
  have find : ∀ i, (s.retype (s.find a) types).find i = s.find i := by
    apply rootOf_eq
    · intro i
      change s.find (parentOf (pin s.cells _ types) i) = s.find i
      rw [parentOf_pin]
      exact rootOf_parentOf s.climbs i
    · intro i top
      change parentOf (pin s.cells _ types) i = i at top
      rw [parentOf_pin] at top
      exact rootOf_eq_self top
  constructor
  · exact Array.size_modify
  · rfl
  · exact find
  · intro i
    rw [stackOf, find, stackOf]
    simp only [retype, pin, Array.getElem?_modify]
    split
    · cases s.cells[s.find i]? <;> rfl
    · rfl
  · intro i
    rw [typesOf, find, typesOf]
    simp only [retype, pin, Array.getElem?_modify]
    have root := find_lt inside
    by_cases same : s.find i = s.find a
    · rw [same, if_pos rfl, if_pos rfl, Array.getElem?_eq_getElem root]
      rfl
    · rw [if_neg (Ne.symm same), if_neg same]

theorem find_join (ne : s.find a ≠ s.find b) (inside : s.find a < s.cells.size)
    (le : rankOf s.cells (s.find b) ≤ rankOf s.cells (s.find a)) (here : b < s.size) (i : Nat) :
    (s.join a b types ne inside le).find i =
      if s.find i = s.find b then s.find a else s.find i := by
  revert i
  apply rootOf_eq
  · intro i
    change (if s.find (parentOf (link s.cells _ _ types) i) = _ then _ else
      s.find (parentOf (link s.cells _ _ types) i)) = _
    rw [parentOf_link types ne]
    split
    · rename_i child
      rw [find_find, if_neg ne, child.1, find_find, if_pos rfl]
    · rw [show s.find (parentOf s.cells i) = s.find i from rootOf_parentOf s.climbs i]
  · intro i top
    change parentOf (link s.cells _ _ types) i = i at top
    rw [parentOf_link types ne] at top
    split at top
    · rename_i child
      exact absurd (top.trans child.1) ne
    · rename_i other
      have own : s.find i = i := rootOf_eq_self top
      rw [own, if_neg fun eq => other ⟨eq, eq ▸ find_lt here⟩]

theorem stack_link {cells : Array Cell} {r c : Nat} (types : List ValueType) (ne : r ≠ c)
    (i : Nat) : (link cells r c types)[i]?.map Cell.stack = cells[i]?.map Cell.stack := by
  rw [getElem?_link types ne, Option.map_map]
  congr 1
  funext cell
  simp only [Function.comp]
  split
  · rfl
  · split <;> rfl

theorem joined_join (ne : s.find a ≠ s.find b) (inside : s.find a < s.cells.size)
    (le : rankOf s.cells (s.find b) ≤ rankOf s.cells (s.find a)) (here : b < s.size)
    (stack : s.stackOf a = s.stackOf b) :
    Joined s (s.join a b types ne inside le) a b types := by
  have root : ∀ i, (s.join a b types ne inside le).find i =
      if s.find i = s.find a ∨ s.find i = s.find b then s.find a else s.find i := by
    intro i
    rw [find_join ne inside le here]
    by_cases inB : s.find i = s.find b
    · simp [inB]
    · by_cases inA : s.find i = s.find a <;> simp [inA, inB]
  constructor
  · simp [size, join, link]
  · rfl
  · exact ⟨s.find a, .inl rfl, root⟩
  · intro i
    rw [stackOf, find_join ne inside le here]
    change ((link s.cells (s.find a) (s.find b) types)[_]?.map Cell.stack).getD .int = _
    rw [stack_link types ne]
    split
    · rename_i inB
      have inClass : s.stackOf i = s.stackOf b := by rw [stackOf, stackOf, inB]
      rw [inClass, ← stack]
      rfl
    · rfl
  · intro i
    rw [typesOf, root]
    change ((link s.cells (s.find a) (s.find b) types)[_]?.map Cell.types).getD [] = _
    rw [getElem?_link types ne]
    split
    · rw [Array.getElem?_eq_getElem inside]
      simp
    · rename_i other
      rw [not_or] at other
      simp only [other.1, other.2, if_false, Option.map_id']
      rfl

theorem exists_root (inside : a < s.size) : ∃ c, s.cells[s.find a]? = some c ∧
    s.stackOf a = c.stack ∧ s.typesOf a = c.types := by
  have below : s.find a < s.cells.size := find_lt inside
  have root := Array.getElem?_eq_getElem below
  exact ⟨_, root, by simp [stackOf, root], by simp [typesOf, root]⟩

def summary (s : Typings) (i : Nat) : Summary := ⟨s.stackOf i, s.typesOf i⟩

theorem freeze_cases (inside : a < s.size) (t : ValueType) :
    (s.stackOf a = t.stack ∧ t ∈ s.typesOf a ∧
      (s.freeze a t).1 = .ok () ∧ Alike s (s.freeze a t).2) ∨
    (s.stackOf a = t.stack ∧ t ∉ s.typesOf a ∧ ∃ types, narrow (s.typesOf a ++ [t]) = some types ∧
      (s.freeze a t).1 = .ok () ∧ Retyped s (s.freeze a t).2 a types) ∨
    ((s.stackOf a ≠ t.stack ∨ t ∉ s.typesOf a ∧ narrow (s.typesOf a ++ [t]) = none) ∧
      (s.freeze a t).1 = .error (.pinned (s.summary a) t) ∧ Alike s (s.freeze a t).2) := by
  have alike := alike_compress s a
  have inside' : a < (s.compress a).size := alike.size ▸ inside
  obtain ⟨c, root, stack, types⟩ := exists_root inside'
  rw [alike.stackOf] at stack
  rw [alike.typesOf] at types
  have shown : s.summary a = c.summary := by rw [summary, stack, types, Cell.summary]
  simp only [freeze, root]
  rw [stack, types, shown]
  by_cases other : c.stack = t.stack
  · by_cases known : t ∈ c.types
    · simp only [other, known, ne_eq, not_true_eq_false, if_false, if_true]
      exact .inl ⟨trivial, trivial, trivial, alike⟩
    · simp only [other, known, ne_eq, not_true_eq_false, if_false]
      cases result : narrow (c.types ++ [t]) with
      | none => exact .inr (.inr ⟨.inr ⟨not_false, rfl⟩, rfl, alike⟩)
      | some types =>
        exact .inr (.inl ⟨trivial, not_false, types, rfl, rfl,
          .of_alike alike (retyped_retype inside' types)⟩)
  · simp only [other, ne_eq, not_false_eq_true, if_true]
    exact .inr (.inr ⟨.inl trivial, trivial, alike⟩)

theorem unite_cases (ha : a < s.size) (hb : b < s.size) :
    (s.find a = s.find b ∧ s.unite a b = (.ok (), s)) ∨
    (s.stackOf a = s.stackOf b ∧ ∃ types, narrow (gather (s.typesOf a) (s.typesOf b)) = some types ∧
      (s.unite a b).1 = .ok () ∧ Joined s (s.unite a b).2 a b types) ∨
    (s.find a ≠ s.find b ∧
      (s.stackOf a ≠ s.stackOf b ∨ narrow (gather (s.typesOf a) (s.typesOf b)) = none) ∧
      s.unite a b = (.error (.classes (s.summary a) (s.summary b)), s)) := by
  obtain ⟨left, rootA, stackA, typesA⟩ := exists_root ha
  obtain ⟨right, rootB, stackB, typesB⟩ := exists_root hb
  have shownA : s.summary a = left.summary := by rw [summary, stackA, typesA, Cell.summary]
  have shownB : s.summary b = right.summary := by rw [summary, stackB, typesB, Cell.summary]
  rw [typesA, typesB, shownA, shownB]
  unfold unite
  split
  · rename_i same
    exact .inl ⟨same, rfl⟩
  · rename_i ne
    right
    split
    · rename_i left' right' rootA' rootB'
      obtain rfl : left = left' := Option.some.inj (rootA.symm.trans rootA')
      obtain rfl : right = right' := Option.some.inj (rootB.symm.trans rootB')
      split
      · rename_i differ
        exact .inr ⟨ne, .inl (stackA ▸ stackB ▸ differ), rfl⟩
      · rename_i differ
        have stack : s.stackOf a = s.stackOf b := by
          rw [stackA, stackB]
          exact Decidable.of_not_not differ
        split
        · rename_i clash
          exact .inr ⟨ne, .inr clash, rfl⟩
        · rename_i types fits
          refine .inl ⟨stack, types, fits, ?_⟩
          split
          · exact ⟨rfl, by dsimp only; exact joined_join _ _ _ hb stack⟩
          · exact ⟨rfl, by dsimp only; exact (joined_join _ _ _ ha stack.symm).symm⟩
    · rename_i missing
      exact absurd rootB (missing left right rootA)

theorem merge_cases (ha : a < s.size) (hb : b < s.size) :
    (s.find a = s.find b ∧ (s.merge a b).1 = .ok () ∧ Alike s (s.merge a b).2) ∨
    (s.stackOf a = s.stackOf b ∧ ∃ types, narrow (gather (s.typesOf a) (s.typesOf b)) = some types ∧
      (s.merge a b).1 = .ok () ∧ Joined s (s.merge a b).2 a b types) ∨
    (s.find a ≠ s.find b ∧
      (s.stackOf a ≠ s.stackOf b ∨ narrow (gather (s.typesOf a) (s.typesOf b)) = none) ∧
      (s.merge a b).1 = .error (.classes (s.summary a) (s.summary b)) ∧
      Alike s (s.merge a b).2) := by
  have alike := (alike_compress s a).trans (alike_compress (s.compress a) b)
  unfold merge
  generalize (s.compress a).compress b = s' at alike
  have shown : ∀ i, s.summary i = s'.summary i := fun i => by
    rw [summary, summary, alike.stackOf, alike.typesOf]
  rw [shown, shown, ← alike.find a, ← alike.find b, ← alike.stackOf a, ← alike.stackOf b,
    ← alike.typesOf a, ← alike.typesOf b]
  rcases unite_cases (alike.size ▸ ha) (alike.size ▸ hb) with
    ⟨same, result⟩ | ⟨stack, types, fits, ok, joined⟩ | ⟨ne, clash, result⟩
  · rw [result]
    exact .inl ⟨same, rfl, alike⟩
  · exact .inr (.inl ⟨stack, types, fits, ok, .of_alike alike joined⟩)
  · rw [result]
    exact .inr (.inr ⟨ne, clash, rfl, alike⟩)

def freezeOutcome (shown : Summary) (t : ValueType) : Except Conflict Unit :=
  if shown.stack = t.stack ∧ (t ∈ shown.types ∨ (narrow (shown.types ++ [t])).isSome) then .ok ()
  else .error (.pinned shown t)

def mergeOutcome (one : Bool) (left right : Summary) : Except Conflict Unit :=
  if one ∨ left.stack = right.stack ∧ (narrow (gather left.types right.types)).isSome then .ok ()
  else .error (.classes left right)

theorem freeze_outcome (inside : a < s.size) (t : ValueType) :
    (s.freeze a t).1 = freezeOutcome (s.summary a) t := by
  unfold freezeOutcome
  rcases freeze_cases inside t with
    ⟨stack, known, ok, -⟩ | ⟨stack, -, types, fits, ok, -⟩ | ⟨clash, failed, -⟩
  · rw [if_pos ⟨stack, .inl known⟩, ok]
  · rw [if_pos ⟨stack, .inr (Option.isSome_iff_exists.2 ⟨types, fits⟩)⟩, ok]
  · rw [if_neg, failed]
    rintro ⟨stack, known | fits⟩
    · exact clash.elim (· stack) fun none => none.1 known
    · exact clash.elim (· stack) fun none => by simp [summary, none.2] at fits

theorem merge_outcome (ha : a < s.size) (hb : b < s.size) :
    (s.merge a b).1 = mergeOutcome (s.sameClass a b) (s.summary a) (s.summary b) := by
  unfold mergeOutcome
  rcases merge_cases ha hb with
    ⟨same, ok, -⟩ | ⟨stack, types, fits, ok, -⟩ | ⟨ne, clash, failed, -⟩
  · rw [if_pos (.inl (beq_iff_eq.2 same)), ok]
  · rw [if_pos (.inr ⟨stack, Option.isSome_iff_exists.2 ⟨types, fits⟩⟩), ok]
  · rw [if_neg, failed]
    rintro (same | ⟨stack, fits⟩)
    · exact ne (beq_iff_eq.1 same)
    · exact clash.elim (· stack) fun none => by simp [summary, none] at fits

theorem kept_freeze (inside : a < s.size) (t : ValueType) :
    (s.freeze a t).2.size = s.size ∧ (s.freeze a t).2.names = s.names := by
  rcases freeze_cases inside t with
    ⟨-, -, -, alike⟩ | ⟨-, -, types, -, -, retyped⟩ | ⟨-, -, alike⟩
  · exact ⟨alike.size, alike.names⟩
  · exact ⟨retyped.size, retyped.names⟩
  · exact ⟨alike.size, alike.names⟩

theorem kept_merge (ha : a < s.size) (hb : b < s.size) :
    (s.merge a b).2.size = s.size ∧ (s.merge a b).2.names = s.names := by
  rcases merge_cases ha hb with ⟨-, -, alike⟩ | ⟨-, types, -, -, joined⟩ | ⟨-, -, -, alike⟩
  · exact ⟨alike.size, alike.names⟩
  · exact ⟨joined.size, joined.names⟩
  · exact ⟨alike.size, alike.names⟩

theorem kept_mergeAll (pairs : List (Nat × Nat))
    (known : ∀ p ∈ pairs, p.1 < s.size ∧ p.2 < s.size) :
    (s.mergeAll pairs).2.size = s.size ∧ (s.mergeAll pairs).2.names = s.names := by
  induction pairs generalizing s with
  | nil => exact ⟨rfl, rfl⟩
  | cons p rest ih =>
    obtain ⟨ha, hb⟩ := known p (by simp)
    obtain ⟨size, names⟩ := kept_merge ha hb
    simp only [mergeAll]
    split <;> rename_i result <;> rw [result] at size names
    · obtain ⟨size', names'⟩ := ih fun q later => by
        rw [size]
        exact known q (List.mem_cons_of_mem _ later)
      exact ⟨size'.trans size, names'.trans names⟩
    · exact ⟨size, names⟩

end ClientScript.Typings
