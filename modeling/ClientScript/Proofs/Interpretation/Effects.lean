import ClientScript.Interpreter
import ClientScript.Proofs.Typing.Facts
import Mathlib.Data.Set.Insert

/-!
What effects say of type variables, as facts, and that performing an effect makes a store describe
one saying more. Declaring again what has a cell says nothing new.
-/
namespace ClientScript

open Typing

abbrev Request := Int32 × Effect

namespace Effect

def puts (t : TypeVar) (stack : StackType) : Effect → Prop
  | .declare u st _ => t = u ∧ stack = st
  | .results script types => ∃ slot, t = .ofResult script slot ∧ types[slot]? = some stack
  | _ => False

def joins (a b : TypeVar) : Effect → Prop
  | .unify a' b' => a = a' ∧ b = b'
  | _ => False

def pins (t : TypeVar) (p : ValueType) : Effect → Prop
  | .declare u _ types => t = u ∧ p ∈ types
  | .freeze u pin => t = u ∧ p = pin
  | _ => False

end Effect

def factsOf (done : Set Request) : Facts TypeVar where
  typed t stack := ∃ r ∈ done, r.2.puts t stack
  joined a b := ∃ r ∈ done, r.2.joins a b
  pinned t p := ∃ r ∈ done, r.2.pins t p

def Typing.Facts.withResults (F : Facts TypeVar) (script : Int32) (slot : Nat)
    (types : List StackType) : Facts TypeVar where
  typed t stack := F.typed t stack ∨ ∃ k, t = .ofResult script (slot + k) ∧ types[k]? = some stack
  joined := F.joined
  pinned := F.pinned

def TypeVar.isName : TypeVar → Bool
  | .cell _ => false
  | _ => true

section

variable {done done' : Set Request} {script : Int32} {F : Facts TypeVar}

theorem factsOf_empty : factsOf ∅ = .empty := by
  ext <;> simp [factsOf, Facts.empty]

theorem factsOf_mono (more : done ⊆ done') : (factsOf done).Within (factsOf done') := by
  constructor
  · rintro t stack ⟨r, member, puts⟩
    exact ⟨r, more member, puts⟩
  · rintro a b ⟨r, member, joins⟩
    exact ⟨r, more member, joins⟩
  · rintro t p ⟨r, member, pins⟩
    exact ⟨r, more member, pins⟩

theorem factsOf_insert (r : Request) (done : Set Request) : factsOf (insert r done) = ⟨
    fun t stack => (factsOf done).typed t stack ∨ r.2.puts t stack,
    fun a b => (factsOf done).joined a b ∨ r.2.joins a b,
    fun t p => (factsOf done).pinned t p ∨ r.2.pins t p⟩ := by
  ext <;> simp only [factsOf, Set.exists_mem_insert, or_comm]

theorem factsOf_declare (t : TypeVar) (stack : StackType) (types : List ValueType) :
    factsOf (insert (script, .declare t stack types) done) =
      (factsOf done).declare t stack types := by
  rw [factsOf_insert]
  ext <;> simp [Facts.declare, Effect.puts, Effect.joins, Effect.pins]

theorem factsOf_unify (a b : TypeVar) :
    factsOf (insert (script, .unify a b) done) = (factsOf done).join a b := by
  rw [factsOf_insert]
  ext <;> simp [Facts.join, Effect.puts, Effect.joins, Effect.pins]

theorem factsOf_freeze (t : TypeVar) (pin : ValueType) :
    factsOf (insert (script, .freeze t pin) done) = (factsOf done).pin t pin := by
  rw [factsOf_insert]
  ext <;> simp [Facts.pin, Effect.puts, Effect.joins, Effect.pins]

theorem factsOf_results (callee : Int32) (types : List StackType) :
    factsOf (insert (script, .results callee types) done) =
      (factsOf done).withResults callee 0 types := by
  rw [factsOf_insert]
  ext <;> simp [Facts.withResults, Effect.puts, Effect.joins, Effect.pins]

theorem factsOf_enter (callee : Int32) :
    factsOf (insert (script, .enter callee) done) = factsOf done := by
  rw [factsOf_insert]
  ext <;> simp [Effect.puts, Effect.joins, Effect.pins]

theorem factsOf_record (callee : Int32) (trigger : Trigger) :
    factsOf (insert (script, .record callee trigger) done) = factsOf done := by
  rw [factsOf_insert]
  ext <;> simp [Effect.puts, Effect.joins, Effect.pins]

end

namespace Typings

def named (s : Typings) (t : TypeVar) : Option Nat :=
  (s.names.find? fun e => e.1 == t).map (·.2)

section

variable {s : Typings} {F : Facts TypeVar} {t u : TypeVar} {stack : StackType}
variable {types : List ValueType}

theorem cell?_eq_named (name : t.isName) : s.cell? t = s.named t := by
  cases t with
  | cell n => simp [TypeVar.isName] at name
  | ofVariable | ofResult | ofValue => rfl

theorem named_declare (absent : s.cell? t = none) (u : TypeVar) :
    (s.declare t stack types).named u = if u = t then some s.size else s.named u := by
  rw [declare, absent]
  simp only [named, List.find?_cons]
  by_cases same : u = t
  · simp [same]
  · rw [if_neg same]
    have other : (t == u) = false := beq_false_of_ne (Ne.symm same)
    simp only [other]

theorem declare_eq_self (typed : F.typed t stack) (pinned : ∀ p ∈ types, F.pinned t p) :
    F.declare t stack types = F := by
  ext u x
  · simp only [Facts.declare]
    constructor
    · rintro (old | ⟨rfl, rfl⟩)
      · exact old
      · exact typed
    · exact .inl
  · rfl
  · simp only [Facts.declare]
    constructor
    · rintro (old | ⟨rfl, member⟩)
      · exact old
      · exact pinned x member
    · exact .inl

/-- Declaring what is declared elsewhere, if at all, on the same stack and with the same types. -/
theorem Describes.declare (h : Describes F s.named s) (name : t.isName)
    (form : NormalForm {p | p ∈ types} types) (onStack : ∀ p ∈ types, p.stack = stack)
    (agrees : ∀ stack', F.typed t stack' → stack' = stack ∧ ∀ p ∈ types, F.pinned t p) :
    Describes (F.declare t stack types) (s.declare t stack types).named
      (s.declare t stack types) := by
  cases known : s.cell? t with
  | some i =>
    have cell : s.named t = some i := (cell?_eq_named name).symm.trans known
    have typed := h.typed_of_cell cell
    obtain ⟨same, pinned⟩ := agrees _ typed
    rw [declare_eq_self (same ▸ typed) pinned, declare_of_some known]
    exact h
  | none =>
    have more : Extended s.named (s.declare t stack types).named t s.size := by
      constructor
      · exact (cell?_eq_named name).symm.trans known
      · rw [named_declare known, if_pos rfl]
      · intro u other
        rw [named_declare known, if_neg other]
    exact h.declare_of_grown more form onStack (grown_declare known stack types)

theorem withResults_nil (F : Facts TypeVar) (script : Int32) (slot : Nat) :
    F.withResults script slot [] = F := by
  ext <;> simp [Facts.withResults]

theorem withResults_cons (F : Facts TypeVar) (script : Int32) (slot : Nat) (wanted : StackType)
    (rest : List StackType) : F.withResults script slot (wanted :: rest) =
      (F.declare (.ofResult script slot) wanted []).withResults script (slot + 1) rest := by
  ext t x
  · simp only [Facts.withResults, Facts.declare, or_assoc]
    refine or_congr_right ?_
    constructor
    · rintro ⟨k, rfl, found⟩
      cases k with
      | zero => exact .inl ⟨rfl, by simpa using found.symm⟩
      | succ k => exact .inr ⟨k, by rw [Nat.add_right_comm, Nat.add_assoc], by simpa using found⟩
    · rintro (⟨rfl, rfl⟩ | ⟨k, rfl, found⟩)
      · exact ⟨0, rfl, rfl⟩
      · exact ⟨k + 1, by rw [Nat.add_right_comm, Nat.add_assoc], by simpa using found⟩
  · rfl
  · simp [Facts.withResults, Facts.declare]

theorem Describes.declareResults (script : Int32) (wanted : List StackType) (slot : Nat)
    (h : Describes F s.named s)
    (agrees : ∀ k st, F.typed (.ofResult script (slot + k)) st →
      ∀ w, wanted[k]? = some w → st = w) :
    (s.declareResultsFrom script slot wanted).1 = .ok () ∧
      Describes (F.withResults script slot wanted) (s.declareResultsFrom script slot wanted).2.named
        (s.declareResultsFrom script slot wanted).2 := by
  induction wanted generalizing F s slot with
  | nil =>
    rw [withResults_nil]
    exact ⟨rfl, h⟩
  | cons w rest ih =>
    have form : NormalForm {t | t ∈ ([] : List ValueType)} [] := by simpa using normalForm_nil
    have next := h.declare (t := .ofResult script slot) rfl form (by simp) fun st typed =>
      ⟨agrees 0 st typed w rfl, by simp⟩
    have held : (((s.declare (.ofResult script slot) w []).cell? (.ofResult script slot)).map
        (s.declare (.ofResult script slot) w []).stackOf).getD w = w := by
      obtain ⟨i, cell, stack⟩ := (next.typed _ w).1 (.inr ⟨rfl, rfl⟩)
      rw [cell?_eq_named rfl, cell]
      exact stack
    rw [withResults_cons]
    simp only [declareResultsFrom, if_pos held]
    apply ih _ next
    intro k st typed w' found
    rcases typed with old | ⟨same, -⟩
    · rw [Nat.add_right_comm, Nat.add_assoc] at old
      exact agrees (k + 1) st old w' (by simpa using found)
    · simp at same
      omega

end

end Typings

end ClientScript
