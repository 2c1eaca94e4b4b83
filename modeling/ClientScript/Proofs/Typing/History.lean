import ClientScript.Typing.Operation
import ClientScript.Proofs.Typing.Facts

/-!
Histories of a typing store. A log says what happened: the stacks that cells were made on, the
pairs that were merged and the types that cells were made with or frozen to, where only what
succeeded counts. After any history the store is what the log says: classes are the equivalence
that the pairs generate, and a class holds the normal form of all its types.
-/
namespace ClientScript.Typings

open Typing

@[ext]
structure Log where
  cells : List StackType
  joined : List (Nat × Nat)
  pinned : List (Nat × ValueType)

namespace Log

def empty : Log := ⟨[], [], []⟩

def made (l : Log) (stack : StackType) (types : List ValueType) : Log where
  cells := l.cells ++ [stack]
  joined := l.joined
  pinned := types.map (Prod.mk l.cells.length) ++ l.pinned

def declared (l : Log) (s : Typings) (t : TypeVar) (stack : StackType) : Log :=
  match s.cell? t with
  | some _ => l
  | none => l.made stack []

def declaredAll (l : Log) (s : Typings) : List Variable → Log
  | [] => l
  | v :: vs =>
    (l.declared s (.ofVariable v) v.type).declaredAll (s.declare (.ofVariable v) v.type []) vs

def declaredResults (l : Log) (s : Typings) (script : Int32) : Nat → List StackType → Log
  | _, [] => l
  | slot, wanted :: rest =>
    let t := TypeVar.ofResult script slot
    let s' := s.declare t wanted []
    let l' := l.declared s t wanted
    if ((s'.cell? t).map s'.stackOf).getD wanted = wanted then
      l'.declaredResults s' script (slot + 1) rest
    else l'

def merged (l : Log) (s : Typings) (a b : Nat) : Log :=
  match (s.merge a b).1 with
  | .ok _ => { l with joined := (a, b) :: l.joined }
  | .error _ => l

def mergedAll (l : Log) (s : Typings) : List (Nat × Nat) → Log
  | [] => l
  | (a, b) :: rest =>
    match s.merge a b with
    | (.ok _, s') => (l.merged s a b).mergedAll s' rest
    | (.error _, _) => l

def frozen (l : Log) (s : Typings) (i : Nat) (t : ValueType) : Log :=
  match (s.freeze i t).1 with
  | .ok _ => { l with pinned := (i, t) :: l.pinned }
  | .error _ => l

def record (l : Log) (s : Typings) : Operation → Log
  | .fresh stack => l.made stack []
  | .prototype p => l.made p.stack [p.type]
  | .ofVariable v => l.declaredAll s [v]
  | .args script types => l.declaredAll s (Variable.parameters script types)
  | .returns script types => l.declaredResults s script 0 types
  | .merge a b | .compare a b => l.merged s a b
  | .assign definitions values =>
    if definitions.length = values.length then l.mergedAll s (definitions.zip values) else l
  | .freeze i t => l.frozen s i t

def facts (l : Log) : Facts Nat where
  typed i stack := l.cells[i]? = some stack
  joined a b := (a, b) ∈ l.joined
  pinned i t := (i, t) ∈ l.pinned

theorem facts_empty : Log.empty.facts = .empty := by
  ext <;> simp [facts, empty, Facts.empty]

theorem facts_made (l : Log) (stack : StackType) (types : List ValueType) :
    (l.made stack types).facts = l.facts.declare l.cells.length stack types := by
  ext i x
  · simp only [facts, made, Facts.declare]
    rcases Nat.lt_trichotomy i l.cells.length with before | rfl | behind
    · rw [List.getElem?_append_left before]
      simp [Nat.ne_of_lt before]
    · simp [eq_comm]
    · rw [List.getElem?_eq_none (by simp; omega), List.getElem?_eq_none (by omega)]
      simp [Nat.ne_of_gt behind]
  · rfl
  · simp only [facts, made, Facts.declare, List.mem_append, List.mem_map, Prod.mk.injEq]
    grind

theorem facts_joined (l : Log) (a b : Nat) :
    { l with joined := (a, b) :: l.joined }.facts = l.facts.join a b := by
  ext x y
  · rfl
  · simp [facts, Facts.join, or_comm]
  · rfl

theorem facts_pinned (l : Log) (i : Nat) (t : ValueType) :
    { l with pinned := (i, t) :: l.pinned }.facts = l.facts.pin i t := by
  ext x y
  · rfl
  · rfl
  · simp [facts, Facts.pin, or_comm]

end Log

/-- A store that comes about from the empty one by operations on cells that it has, and the log
    of what happened. Operations may fail. -/
inductive History : Typings → Log → Prop where
  | start : History .empty .empty
  | step {s : Typings} {l : Log} (op : Operation) (before : History s l)
      (known : ∀ i ∈ op.cells, i < s.size) : History (s.perform op).2 (l.record s op)

def own (s : Typings) (i : Nat) : Option Nat := if i < s.size then some i else none

structure Logged (l : Log) (s : Typings) : Prop where
  size : l.cells.length = s.size
  describes : Describes l.facts s.own s

section

variable {s s' : Typings} {l : Log} {a b i : Nat}

theorem own_of_lt (h : i < s.size) : s.own i = some i := if_pos h

theorem own_of_le (h : s.size ≤ i) : s.own i = none := if_neg (Nat.not_lt.2 h)

theorem own_congr (h : s'.size = s.size) : s'.own = s.own := by
  funext i
  rw [own, own, h]

theorem known_pairs {definitions values : List Nat}
    (known : ∀ i ∈ (Operation.assign definitions values).cells, i < s.size) :
    ∀ p ∈ definitions.zip values, p.1 < s.size ∧ p.2 < s.size := by
  intro p pair
  obtain ⟨left, right⟩ := List.of_mem_zip (show (p.1, p.2) ∈ _ from pair)
  exact ⟨known _ (List.mem_append_left _ left), known _ (List.mem_append_right _ right)⟩

theorem Describes.sameClass_iff {F : Facts Nat} (h : Describes F s.own s) :
    s.sameClass a b = true ↔ F.Same a b := by
  have classes := h.classes a b
  rw [sameClass, beq_iff_eq]
  refine Iff.trans ?_ classes.symm
  rcases Nat.lt_or_ge a s.size with ha | ha <;> rcases Nat.lt_or_ge b s.size with hb | hb
  · rw [place_of_cell (own_of_lt ha), place_of_cell (own_of_lt hb), Sum.inr.injEq]
  · rw [place_of_cell (own_of_lt ha), place_of_none (own_of_le hb), find_of_size_le hb]
    have below := find_lt ha
    simp only [reduceCtorEq, iff_false]
    omega
  · rw [place_of_none (own_of_le ha), place_of_cell (own_of_lt hb), find_of_size_le ha]
    have below := find_lt hb
    simp only [reduceCtorEq, iff_false]
    omega
  · rw [place_of_none (own_of_le ha), place_of_none (own_of_le hb), find_of_size_le ha,
      find_of_size_le hb, Sum.inl.injEq]

namespace Logged

theorem made (h : Logged l s) {stack : StackType} {types : List ValueType}
    (form : NormalForm {t | t ∈ types} types) (onStack : ∀ t ∈ types, t.stack = stack)
    (grown : Grown s s' stack types) : Logged (l.made stack types) s' := by
  constructor
  · rw [Log.made, List.length_append, h.size, grown.size]
    rfl
  · rw [Log.facts_made, h.size]
    have more : Extended s.own s'.own s.size s.size := by
      constructor
      · exact own_of_le (Nat.le_refl _)
      · exact own_of_lt (grown.size ▸ Nat.lt_succ_self _)
      · intro i ne
        simp only [own, grown.size]
        congr 1
        exact propext ⟨fun lt => Nat.lt_of_le_of_ne (Nat.le_of_lt_succ lt) ne, Nat.lt_succ_of_lt⟩
    exact h.describes.declare_of_grown more form onStack grown

theorem declared (h : Logged l s) (t : TypeVar) (stack : StackType) :
    Logged (l.declared s t stack) (s.declare t stack []) := by
  cases known : s.cell? t with
  | some i =>
    rw [Log.declared, known, declare_of_some known]
    exact h
  | none =>
    rw [Log.declared, known]
    have form : NormalForm {t | t ∈ ([] : List ValueType)} [] := by simpa using normalForm_nil
    exact h.made form (by simp) (grown_declare known stack [])

theorem declaredAll (vs : List Variable) (h : Logged l s) :
    Logged (l.declaredAll s vs) (s.declareVariables vs) := by
  induction vs generalizing l s with
  | nil => exact h
  | cons v vs ih => exact ih (h.declared (.ofVariable v) v.type)

theorem declaredResults (script : Int32) (types : List StackType) (slot : Nat) (h : Logged l s) :
    Logged (l.declaredResults s script slot types) (s.declareResultsFrom script slot types).2 := by
  induction types generalizing l s slot with
  | nil => exact h
  | cons wanted rest ih =>
    have next := h.declared (.ofResult script slot) wanted
    simp only [Log.declaredResults, declareResultsFrom]
    split
    · exact ih _ next
    · exact next

theorem merged (h : Logged l s) (ha : a < s.size) (hb : b < s.size) :
    Logged (l.merged s a b) (s.merge a b).2 := by
  have size := (kept_merge ha hb).1
  rw [Log.merged]
  rcases h.describes.merge (own_of_lt ha) (own_of_lt hb) with
    ⟨ok, describes⟩ | ⟨⟨c, failed⟩, describes, -⟩
  · rw [ok]
    constructor
    · exact h.size.trans size.symm
    · rw [Log.facts_joined, own_congr size]
      exact describes
  · rw [failed]
    constructor
    · exact h.size.trans size.symm
    · rw [own_congr size]
      exact describes

theorem mergedAll (pairs : List (Nat × Nat)) (h : Logged l s)
    (known : ∀ p ∈ pairs, p.1 < s.size ∧ p.2 < s.size) :
    Logged (l.mergedAll s pairs) (s.mergeAll pairs).2 := by
  induction pairs generalizing l s with
  | nil => exact h
  | cons p rest ih =>
    obtain ⟨ha, hb⟩ := known p (by simp)
    have next := h.merged ha hb
    have size := (kept_merge ha hb).1
    rcases result : s.merge p.1 p.2 with ⟨outcome, s'⟩
    simp only [Log.mergedAll, mergeAll, result]
    rw [result] at next size
    cases outcome with
    | ok _ =>
      apply ih next
      intro q later
      rw [size]
      exact known q (List.mem_cons_of_mem _ later)
    | error c =>
      rw [Log.merged, result] at next
      exact next

theorem frozen (h : Logged l s) (inside : i < s.size) (t : ValueType) :
    Logged (l.frozen s i t) (s.freeze i t).2 := by
  have size := (kept_freeze inside t).1
  rw [Log.frozen]
  rcases h.describes.freeze (own_of_lt inside) t with
    ⟨ok, describes⟩ | ⟨⟨c, failed⟩, describes, -⟩
  · rw [ok]
    constructor
    · exact h.size.trans size.symm
    · rw [Log.facts_pinned, own_congr size]
      exact describes
  · rw [failed]
    constructor
    · exact h.size.trans size.symm
    · rw [own_congr size]
      exact describes

theorem perform (h : Logged l s) (op : Operation) (known : ∀ i ∈ op.cells, i < s.size) :
    Logged (l.record s op) (s.perform op).2 := by
  cases op with
  | fresh stack =>
    have form : NormalForm {t | t ∈ ([] : List ValueType)} [] := by simpa using normalForm_nil
    exact h.made form (by simp) (grown_grow s stack [])
  | prototype p =>
    have form : NormalForm {t | t ∈ [p.type]} [p.type] := by simpa using normalForm_one p.type
    exact h.made form (by simp [Prototype.stack]) (grown_grow s p.stack [p.type])
  | ofVariable v => exact h.declaredAll [v]
  | args script types => exact h.declaredAll (Variable.parameters script types)
  | returns script types => exact h.declaredResults script types 0
  | merge a b | compare a b =>
    exact h.merged (known a (by simp [Operation.cells])) (known b (by simp [Operation.cells]))
  | assign definitions values =>
    simp only [Log.record, Typings.perform, assign]
    split
    · exact h.mergedAll _ (known_pairs known)
    · exact h
  | freeze i t => exact h.frozen (known i (by simp [Operation.cells])) t

end Logged

theorem History.logged (h : History s l) : Logged l s := by
  induction h with
  | start =>
    constructor
    · rfl
    · rw [Log.facts_empty]
      exact describes_empty fun i => if_neg (Nat.not_lt_zero i)
  | step op before known ih => exact ih.perform op known

end

end ClientScript.Typings
