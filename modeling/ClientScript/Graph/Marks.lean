/-!
Marks on the first `size` numbers. A number beyond them cannot be marked and is never open, so a
search that follows open numbers only stays inside and ends: each mark leaves fewer open.
-/
namespace ClientScript

structure Marks where
  bits : Array Bool

namespace Marks

def none (size : Nat) : Marks := ⟨Array.replicate size false⟩

def has (m : Marks) (v : Nat) : Bool := m.bits[v]?.getD false

def isOpen (m : Marks) (v : Nat) : Bool := m.bits[v]? == some false

def mark (m : Marks) (v : Nat) : Marks := ⟨m.bits.setIfInBounds v true⟩

def openCount (m : Marks) : Nat := m.bits.count false

def toList (m : Marks) : List Bool := m.bits.toList

theorem openCount_none (size : Nat) : (none size).openCount = size := by
  simp [none, openCount]

theorem isOpen_iff {m : Marks} {v : Nat} : m.isOpen v ↔ v < m.bits.size ∧ ¬ m.has v := by
  simp only [isOpen, has, beq_iff_eq]
  by_cases h : v < m.bits.size
  · simp [h]
  · simp [h]

theorem has_mark (m : Marks) (v w : Nat) :
    (m.mark v).has w = (m.has w || (w == v && v < m.bits.size)) := by
  simp only [has, mark, Array.getElem?_setIfInBounds]
  by_cases e : v = w
  · subst e
    by_cases h : v < m.bits.size <;> simp [h]
  · simp [e, Ne.symm e]

theorem has_of_has_mark {m : Marks} {v w : Nat} (marked : (m.mark v).has w) : m.has w ∨ w = v := by
  rw [has_mark, Bool.or_eq_true, Bool.and_eq_true, beq_iff_eq] at marked
  exact marked.imp_right And.left

theorem size_mark (m : Marks) (v : Nat) : (m.mark v).bits.size = m.bits.size := by
  simp [mark]

theorem openCount_mark {m : Marks} {v : Nat} (h : m.isOpen v) :
    (m.mark v).openCount + 1 = m.openCount := by
  have inside := (isOpen_iff.1 h).1
  have unmarked : m.bits[v] = false := by simpa [isOpen, inside] using h
  have positive : 0 < m.bits.count false :=
    Array.count_pos_iff.2 (unmarked ▸ Array.getElem_mem inside)
  simp only [openCount, mark, Array.setIfInBounds_def, inside, dif_pos]
  rw [Array.count, Array.countP_set]
  simp only [unmarked]
  have : Array.countP (fun x => x == false) m.bits = m.bits.count false := rfl
  simp only [this]
  simp
  omega

theorem openCount_mark_lt {m : Marks} {v : Nat} (h : m.isOpen v) :
    (m.mark v).openCount < m.openCount := by
  have := openCount_mark h
  omega

end Marks

end ClientScript
