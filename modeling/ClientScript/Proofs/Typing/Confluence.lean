import ClientScript.Proofs.Typing.History

/-!
Orders of constraints. Merging, comparing and freezing each add a fact; a list of them succeeds
exactly if the facts of the store and of the list together are free of contradiction. That does not
depend on the order, and stores of the same facts show the same.
-/
namespace ClientScript

namespace Typings

open Typing

def Operation.constrains : Operation → Bool
  | .merge .. | .compare .. | .freeze .. => true
  | _ => false

def Operation.joins (a b : Nat) (op : Operation) : Prop := op = .merge a b ∨ op = .compare a b

def addAll (F : Facts Nat) (ops : List Operation) : Facts Nat where
  typed := F.typed
  joined a b := F.joined a b ∨ ∃ op ∈ ops, op.joins a b
  pinned i t := F.pinned i t ∨ .freeze i t ∈ ops

def performAll (s : Typings) : List Operation → Except Conflict Unit × Typings
  | [] => (.ok (), s)
  | op :: rest =>
    match s.perform op with
    | (.ok _, s') => s'.performAll rest
    | (.error c, s') => (.error c, s')

section

variable {F : Facts Nat} {s : Typings} {ops : List Operation}

theorem addAll_nil (F : Facts Nat) : addAll F [] = F := by
  ext <;> simp [addAll]

theorem within_addAll (F : Facts Nat) (ops : List Operation) : F.Within (addAll F ops) :=
  ⟨fun _ _ h => h, fun _ _ h => .inl h, fun _ _ h => .inl h⟩

theorem addAll_addAll (F : Facts Nat) (ops rest : List Operation) :
    addAll (addAll F ops) rest = addAll F (ops ++ rest) := by
  ext a b
  · rfl
  · simp only [addAll, List.mem_append, or_and_right, exists_or, or_assoc]
  · simp only [addAll, List.mem_append, or_assoc]

theorem addAll_perm (F : Facts Nat) {other : List Operation} (perm : ops.Perm other) :
    addAll F ops = addAll F other := by
  ext a b
  · rfl
  · simp only [addAll, perm.mem_iff]
  · simp only [addAll, perm.mem_iff]

theorem addAll_merge (F : Facts Nat) (a b : Nat) : addAll F [.merge a b] = F.join a b := by
  ext x y
  · rfl
  · simp [addAll, Facts.join, Operation.joins, eq_comm]
  · simp [addAll, Facts.join]

theorem addAll_compare (F : Facts Nat) (a b : Nat) : addAll F [.compare a b] = F.join a b := by
  ext x y
  · rfl
  · simp [addAll, Facts.join, Operation.joins, eq_comm]
  · simp [addAll, Facts.join]

theorem addAll_freeze (F : Facts Nat) (i : Nat) (t : ValueType) :
    addAll F [.freeze i t] = F.pin i t := by
  ext x y
  · rfl
  · simp [addAll, Facts.pin, Operation.joins]
  · simp [addAll, Facts.pin, eq_comm]

/-- What a constraint comes to: it adds its fact, or its fact contradicts what there is. -/
inductive Imposed (F : Facts Nat) (s : Typings) (op : Operation) : Prop where
  | done (cells : List Nat) (ok : (s.perform op).1 = .ok cells)
      (size : (s.perform op).2.size = s.size)
      (describes : Describes (addAll F [op]) s.own (s.perform op).2)
  | refused (c : Conflict) (failed : (s.perform op).1 = .error c)
      (clash : ¬ (addAll F [op]).Consistent)

theorem imposed_merge {a b : Nat} (h : Describes F s.own s) (ha : a < s.size) (hb : b < s.size) :
    Imposed F s (.merge a b) := by
  rcases h.merge (own_of_lt ha) (own_of_lt hb) with ⟨ok, describes⟩ | ⟨⟨c, failed⟩, -, clash⟩
  · apply Imposed.done []
    · simp [perform, ok, Except.map]
    · exact (kept_merge ha hb).1
    · rw [addAll_merge]
      exact describes
  · apply Imposed.refused c
    · simp [perform, failed, Except.map]
    · rw [addAll_merge]
      exact clash

theorem imposed (h : Describes F s.own s) {op : Operation} (constrains : op.constrains)
    (known : ∀ i ∈ op.cells, i < s.size) : Imposed F s op := by
  cases op with
  | merge a b =>
    exact imposed_merge h (known a (by simp [Operation.cells]))
      (known b (by simp [Operation.cells]))
  | compare a b =>
    have merged := imposed_merge h (known a (by simp [Operation.cells]))
      (known b (by simp [Operation.cells]))
    have same : addAll F [.compare a b] = addAll F [.merge a b] := by
      rw [addAll_compare, addAll_merge]
    cases merged with
    | done cells ok size describes => exact .done cells ok size (same ▸ describes)
    | refused c failed clash => exact .refused c failed (same ▸ clash)
  | freeze i t =>
    have inside := known i (by simp [Operation.cells])
    rcases h.freeze (own_of_lt inside) t with ⟨ok, describes⟩ | ⟨⟨c, failed⟩, -, clash⟩
    · apply Imposed.done []
      · simp [perform, ok, Except.map]
      · exact (kept_freeze inside t).1
      · rw [addAll_freeze]
        exact describes
    · apply Imposed.refused c
      · simp [perform, failed, Except.map]
      · rw [addAll_freeze]
        exact clash
  | fresh | prototype | ofVariable | args | returns | assign =>
    simp [Operation.constrains] at constrains

theorem performAll_constraints (h : Describes F s.own s)
    (constrain : ∀ op ∈ ops, op.constrains) (known : ∀ op ∈ ops, ∀ i ∈ op.cells, i < s.size) :
    ((s.performAll ops).1 = .ok () ∧ (s.performAll ops).2.size = s.size ∧
        Describes (addAll F ops) s.own (s.performAll ops).2) ∨
      ((∃ c, (s.performAll ops).1 = .error c) ∧ ¬ (addAll F ops).Consistent) := by
  induction ops generalizing F s with
  | nil =>
    rw [addAll_nil]
    exact .inl ⟨rfl, rfl, h⟩
  | cons op rest ih =>
    have split : addAll (addAll F [op]) rest = addAll F (op :: rest) := addAll_addAll F [op] rest
    rcases result : s.perform op with ⟨outcome, s'⟩
    simp only [performAll, result]
    cases imposed h (constrain op (by simp)) (known op (by simp)) with
    | done cells ok size describes =>
      rw [result] at ok size describes
      simp only at ok size describes
      rw [ok, ← own_congr size, ← size, ← split]
      rw [← own_congr size] at describes
      apply ih describes
      · exact fun op later => constrain op (by simp [later])
      · intro op later i member
        rw [size]
        exact known op (by simp [later]) i member
    | refused c failed clash =>
      rw [result] at failed
      simp only at failed
      rw [failed]
      refine .inr ⟨⟨c, rfl⟩, fun consistent => clash ?_⟩
      rw [← split] at consistent
      exact consistent.mono (within_addAll _ rest)

theorem stackOf_of_size_le {i : Nat} (h : s.size ≤ i) : s.stackOf i = .int := by
  have none : s.cells[i]? = none := Array.getElem?_eq_none h
  simp [stackOf, find_of_size_le h, none]

theorem typesOf_of_size_le {i : Nat} (h : s.size ≤ i) : s.typesOf i = [] := by
  have none : s.cells[i]? = none := Array.getElem?_eq_none h
  simp [typesOf, find_of_size_le h, none]

theorem shows_same {s' : Typings} (left : Describes F s.own s) (right : Describes F s'.own s')
    (size : s'.size = s.size) : (∀ a b, s'.sameClass a b = s.sameClass a b) ∧
      (∀ i, s'.stackOf i = s.stackOf i) ∧ ∀ i, s'.typesOf i = s.typesOf i := by
  refine ⟨?_, ?_, ?_⟩
  · intro a b
    rw [Bool.eq_iff_iff, left.sameClass_iff, right.sameClass_iff]
  · intro i
    rcases Nat.lt_or_ge i s.size with inside | outside
    · exact right.same_stack left (own_of_lt (size ▸ inside)) (own_of_lt inside)
    · rw [stackOf_of_size_le (size ▸ outside), stackOf_of_size_le outside]
  · intro i
    rcases Nat.lt_or_ge i s.size with inside | outside
    · exact right.same_types left (own_of_lt (size ▸ inside)) (own_of_lt inside)
    · rw [typesOf_of_size_le (size ▸ outside), typesOf_of_size_le outside]

end

end Typings

end ClientScript
