import ClientScript.Lift.Code
import Mathlib.Data.List.Induction

/-!
Numbers in a lifted chain. Putting labels in front of instructions leaves the numbers alone: the
instruction of a script position keeps that position as its number, and labels have the numbers
behind.
-/
namespace ClientScript

namespace Chain

theorem get?_eq (c : Chain) (id : Nat) : c.get? id = c.links[id]?.bind Link.insn := by
  unfold get? live?
  cases c.links[id]? with
  | none => rfl
  | some l => cases h : l.insn <;> simp [Option.filter, h]

theorem insn_setNext (links : Array Link) (a id : Nat) (next : Option Nat) :
    (setNext links a next)[id]?.bind Link.insn = links[id]?.bind Link.insn := by
  simp only [setNext, Array.getElem?_modify]
  split
  · cases links[id]? <;> rfl
  · rfl

theorem insn_setPrev (links : Array Link) (a id : Nat) (prev : Option Nat) :
    (setPrev links a prev)[id]?.bind Link.insn = links[id]?.bind Link.insn := by
  simp only [setPrev, Array.getElem?_modify]
  split
  · cases links[id]? <;> rfl
  · rfl

theorem insn_push (links : Array Link) (l : Link) (id : Nat) :
    (links.push l)[id]?.bind Link.insn =
      if id = links.size then l.insn else links[id]?.bind Link.insn := by
  rw [Array.getElem?_push]
  split <;> simp_all

theorem get?_push (c : Chain) (insn : Instruction) (id : Nat) :
    (c.push insn).get? id = if id = c.links.size then some insn else c.get? id := by
  rw [get?_eq, get?_eq, push]
  cases c.tail with
  | none => exact insn_push ..
  | some t => exact (insn_setNext ..).trans (insn_push ..)

theorem get?_insertBefore {c c' : Chain} {anchor : Nat} {insn : Instruction}
    (h : c.insertBefore? anchor insn = some c') (id : Nat) :
    c'.get? id = if id = c.links.size then some insn else c.get? id := by
  unfold insertBefore? at h
  split at h
  · simp at h
  · rename_i l found
    rw [get?_eq, get?_eq, ← Option.some.inj h]
    cases l.prev with
    | none => simp only [insn_setPrev, insn_push]
    | some p => simp only [insn_setNext, insn_setPrev, insn_push]

theorem size_insertBefore {c c' : Chain} {anchor : Nat} {insn : Instruction}
    (h : c.insertBefore? anchor insn = some c') : c'.links.size = c.links.size + 1 := by
  unfold insertBefore? at h
  split at h
  · simp at h
  · rename_i l found
    rw [← Option.some.inj h]
    cases l.prev <;> simp [setNext, setPrev]

/-- The links begin with the instructions, and labels come behind. -/
structure Numbered (insns : List Instruction) (c : Chain) : Prop where
  size : insns.length ≤ c.links.size
  early : ∀ id, id < insns.length → c.get? id = insns[id]?
  late : ∀ id i, insns.length ≤ id → c.get? id = some i → i.anchor?.isSome

theorem numbered_ofList (insns : List Instruction) : Numbered insns (ofList insns) := by
  have both : (ofList insns).links.size = insns.length ∧
      ∀ id, (ofList insns).get? id = insns[id]? := by
    induction insns using List.reverseRecOn with
    | nil => exact ⟨rfl, fun id => by simp [ofList, empty, get?_eq]⟩
    | append_singleton insns insn ih =>
      have eq : ofList (insns ++ [insn]) = (ofList insns).push insn := by simp [ofList]
      refine ⟨by rw [eq, links_push_size, ih.1, List.length_append]; rfl, fun id => ?_⟩
      rw [eq, get?_push, ih.1, ih.2]
      by_cases last : id = insns.length
      · simp [last]
      · rw [if_neg last]
        rcases Nat.lt_or_gt_of_ne last with before | behind
        · rw [List.getElem?_append_left before]
        · rw [List.getElem?_eq_none (by omega), List.getElem?_eq_none (by simp; omega)]
  refine ⟨Nat.le_of_eq both.1.symm, fun id _ => both.2 id, fun id i late found => ?_⟩
  rw [both.2, List.getElem?_eq_none late] at found
  simp at found

theorem Numbered.insert {insns : List Instruction} {c : Chain} (h : Numbered insns c) (l : Label) :
    Numbered insns ((c.insertBefore? l (.label l)).getD c) := by
  cases made : c.insertBefore? l (.label l) with
  | none => exact h
  | some c' =>
    have size := size_insertBefore made
    have old := h.size
    refine ⟨?_, ?_, ?_⟩
    · rw [Option.getD_some, size]
      omega
    · intro id inside
      rw [Option.getD_some, get?_insertBefore made, if_neg (by omega)]
      exact h.early id inside
    · intro id i late found
      rw [Option.getD_some, get?_insertBefore made] at found
      split at found
      · rw [← Option.some.inj found]
        rfl
      · exact h.late id i late found

theorem numbered_anchored (insns : List Instruction) : Numbered insns (Lift.anchored insns) := by
  unfold Lift.anchored
  simp only
  generalize (List.range insns.length).filter _ = anchors
  have start := numbered_ofList insns
  generalize ofList insns = c at start ⊢
  induction anchors generalizing c with
  | nil => exact start
  | cons l anchors ih => exact ih _ (start.insert l)

theorem get?_of_mem {c : Chain} {e : Nat × Instruction} (member : e ∈ c.toList) :
    c.get? e.1 = some e.2 := by
  unfold toList at member
  generalize c.length = budget at member
  generalize c.head = front at member
  induction budget generalizing front with
  | zero => simp [listFrom] at member
  | succ budget ih =>
    cases front with
    | none => simp [listFrom] at member
    | some id =>
      simp only [listFrom] at member
      split at member
      · rename_i l live
        split at member
        · rename_i insn found
          rcases List.mem_cons.1 member with rfl | later
          · simp [get?, live, found]
          · exact ih _ later
        · simp at member
      · simp at member

end Chain

end ClientScript
