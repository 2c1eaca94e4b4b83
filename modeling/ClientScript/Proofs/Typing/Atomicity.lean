import ClientScript.Proofs.Interpretation.Effects
import ClientScript.Proofs.Typing.Confluence

/-!
Operations that fail. What a failing merge, comparison or freeze leaves behind differs in parent
links alone, and no question shows these. The results of a script come into being from the first on,
so a declaration of results that fails meets an old slot before it makes a new one, and leaves the
very same store. An assignment keeps the pairs before the one that fails, and nothing else.
-/
namespace ClientScript.Typings

open Typing

/-- Stores that give the same answers to all questions: about the number of cells, the cells of
    type variables, the classes, their stacks and their types. -/
structure SameAnswers (s s' : Typings) : Prop where
  size : s'.size = s.size
  cells : ∀ t, s'.cell? t = s.cell? t
  sameClass : ∀ a b, s'.sameClass a b = s.sameClass a b
  stackOf : ∀ i, s'.stackOf i = s.stackOf i
  typesOf : ∀ i, s'.typesOf i = s.typesOf i
  resolve : ∀ i, s'.resolve i = s.resolve i
  tightest : ∀ i, s'.tightest i = s.tightest i

variable {s s' : Typings} {c : Conflict}

theorem Alike.sameAnswers (h : Alike s s') : SameAnswers s s' := by
  refine ⟨h.size, fun t => ?_, fun a b => ?_, h.stackOf, h.typesOf, fun i => ?_, fun i => ?_⟩
  · cases t with
    | cell n => simp only [cell?, h.size]
    | ofVariable | ofResult | ofValue => simp only [cell?, h.names]
  · rw [sameClass, sameClass, h.find, h.find]
  · rw [Typings.resolve, Typings.resolve, h.stackOf, h.typesOf]
  · rw [Typings.tightest, Typings.tightest, h.stackOf, h.typesOf]

theorem alike_of_failed_merge {a b : Nat} (ha : a < s.size) (hb : b < s.size)
    (failed : (s.merge a b).1 = .error c) : Alike s (s.merge a b).2 := by
  rcases merge_cases ha hb with ⟨-, ok, -⟩ | ⟨-, _, -, ok, -⟩ | ⟨-, -, -, alike⟩
  · simp [ok] at failed
  · simp [ok] at failed
  · exact alike

theorem alike_of_failed_freeze {i : Nat} {t : ValueType} (inside : i < s.size)
    (failed : (s.freeze i t).1 = .error c) : Alike s (s.freeze i t).2 := by
  rcases freeze_cases inside t with ⟨-, -, ok, -⟩ | ⟨-, -, _, -, ok, -⟩ | ⟨-, -, alike⟩
  · simp [ok] at failed
  · simp [ok] at failed
  · exact alike

theorem error_of_map {ε α β : Type} {f : α → β} {r : Except ε α} {e : ε}
    (failed : r.map f = .error e) : r = .error e := by
  cases r with
  | ok a => simp [Except.map] at failed
  | error e' => exact congrArg _ (Except.error.inj failed)

theorem alike_of_failed_constraint {op : Operation} (constrains : op.constrains)
    (known : ∀ i ∈ op.cells, i < s.size) (failed : (s.perform op).1 = .error c) :
    Alike s (s.perform op).2 := by
  cases op with
  | merge a b | compare a b =>
    exact alike_of_failed_merge (known a (by simp [Operation.cells]))
      (known b (by simp [Operation.cells])) (error_of_map failed)
  | freeze i t =>
    exact alike_of_failed_freeze (known i (by simp [Operation.cells])) (error_of_map failed)
  | fresh | prototype | ofVariable | args | returns | assign =>
    simp [Operation.constrains] at constrains

/-- A script that has a result has all results before it. -/
def ResultsFromFirst (s : Typings) : Prop :=
  ∀ script slot, s.cell? (.ofResult script (slot + 1)) ≠ none →
    s.cell? (.ofResult script slot) ≠ none

theorem cell?_declare (t : TypeVar) {u : TypeVar} (stack : StackType) (types : List ValueType)
    (name : u.isName) : (s.declare t stack types).cell? u =
      if u = t then (s.cell? t).or (some s.size) else s.cell? u := by
  cases known : s.cell? t with
  | some i =>
    rw [declare_of_some known]
    split
    · rename_i same
      rw [same, known]
      rfl
    · rfl
  | none =>
    rw [cell?_eq_named name, named_declare known, cell?_eq_named name]
    rfl

theorem ResultsFromFirst.declare (h : ResultsFromFirst s) {t : TypeVar}
    (next : ∀ script slot, t = .ofResult script (slot + 1) →
      s.cell? (.ofResult script slot) ≠ none)
    (stack : StackType) (types : List ValueType) : ResultsFromFirst (s.declare t stack types) := by
  intro script slot later
  rw [cell?_declare _ _ _ rfl] at later ⊢
  split
  · simp
  · split at later
    · rename_i same
      exact next script slot same.symm
    · exact h script slot later

theorem ResultsFromFirst.of_names (h : ResultsFromFirst s) (names : s'.names = s.names) :
    ResultsFromFirst s' := by
  intro script slot later
  simp only [cell?, names] at later ⊢
  exact h script slot later

theorem ResultsFromFirst.declareVariables (vs : List Variable) (h : ResultsFromFirst s) :
    ResultsFromFirst (s.declareVariables vs) := by
  induction vs generalizing s with
  | nil => exact h
  | cons v vs ih => exact ih (h.declare (by simp) v.type [])

theorem ResultsFromFirst.declareResults (script : Int32) (types : List StackType) (slot : Nat)
    (h : ResultsFromFirst s) (next : ∀ n, slot = n + 1 → s.cell? (.ofResult script n) ≠ none) :
    ResultsFromFirst (s.declareResultsFrom script slot types).2 := by
  induction types generalizing s slot with
  | nil => exact h
  | cons wanted rest ih =>
    have step : ResultsFromFirst (s.declare (.ofResult script slot) wanted []) := by
      refine h.declare ?_ wanted []
      rintro _ n ⟨⟩
      exact next n rfl
    simp only [declareResultsFrom]
    split
    · refine ih (slot + 1) step ?_
      rintro n ⟨⟩
      rw [cell?_declare _ _ _ rfl, if_pos rfl]
      simp
    · exact step

theorem ResultsFromFirst.perform (h : ResultsFromFirst s) (op : Operation)
    (known : ∀ i ∈ op.cells, i < s.size) : ResultsFromFirst (s.perform op).2 := by
  cases op with
  | fresh | prototype => exact h
  | ofVariable v => exact h.declareVariables [v]
  | args script types => exact h.declareVariables (Variable.parameters script types)
  | returns script types => exact h.declareResults script types 0 (by simp)
  | merge a b | compare a b =>
    exact h.of_names (kept_merge (known a (by simp [Operation.cells]))
      (known b (by simp [Operation.cells]))).2
  | assign definitions values =>
    simp only [Typings.perform, assign]
    split
    · exact h.of_names (kept_mergeAll _ (known_pairs known)).2
    · exact h
  | freeze i t => exact h.of_names (kept_freeze (known i (by simp [Operation.cells])) t).2

theorem History.resultsFromFirst {l : Log} (h : History s l) : ResultsFromFirst s := by
  induction h with
  | start => simp [ResultsFromFirst, cell?, Typings.empty]
  | step op before known ih => exact ih.perform op known

theorem declareResults_fresh (script : Int32) (types : List StackType) (slot : Nat)
    (fresh : ∀ n, slot ≤ n → s.cell? (.ofResult script n) = none) :
    (s.declareResultsFrom script slot types).1 = .ok () := by
  induction types generalizing s slot with
  | nil => rfl
  | cons wanted rest ih =>
    have here := fresh slot (Nat.le_refl _)
    have cell : (s.declare (.ofResult script slot) wanted []).cell? (.ofResult script slot) =
        some s.size := by
      rw [cell?_declare _ _ _ rfl, if_pos rfl, here, Option.none_or]
    simp only [declareResultsFrom, cell, Option.map_some, Option.getD_some,
      (grown_declare here wanted []).newStack, if_true]
    refine ih (slot + 1) fun n behind => ?_
    rw [cell?_declare _ _ _ rfl, if_neg, fresh n (Nat.le_of_succ_le behind)]
    simp only [TypeVar.ofResult.injEq, true_and]
    omega

theorem declareResults_of_failed (h : ResultsFromFirst s) (script : Int32)
    (types : List StackType) (slot : Nat)
    (failed : (s.declareResultsFrom script slot types).1 = .error c) :
    (s.declareResultsFrom script slot types).2 = s := by
  induction types generalizing slot with
  | nil => rfl
  | cons wanted rest ih =>
    cases known : s.cell? (.ofResult script slot) with
    | some i =>
      simp only [declareResultsFrom, declare_of_some known] at failed ⊢
      split at failed
      · rename_i held
        rw [if_pos held]
        exact ih (slot + 1) failed
      · rename_i other
        rw [if_neg other]
    | none =>
      have fresh : ∀ n, slot ≤ n → s.cell? (.ofResult script n) = none := by
        intro n behind
        induction behind with
        | refl => exact known
        | step _ absent => exact not_not.1 fun later => h script _ later absent
      rw [declareResults_fresh script (wanted :: rest) slot fresh] at failed
      simp at failed

def merges (pairs : List (Nat × Nat)) : List Operation := pairs.map fun p => .merge p.1 p.2

/-- Pairs that do not all merge are merged up to the first that fails. -/
theorem mergeAll_of_failed {pairs : List (Nat × Nat)}
    (known : ∀ p ∈ pairs, p.1 < s.size ∧ p.2 < s.size)
    (failed : (s.mergeAll pairs).1 = .error c) : ∃ k p t, pairs[k]? = some p ∧
      s.performAll (merges (pairs.take k)) = (.ok (), t) ∧ (t.merge p.1 p.2).1 = .error c ∧
      Alike t (s.mergeAll pairs).2 := by
  induction pairs generalizing s with
  | nil => simp [mergeAll] at failed
  | cons p rest ih =>
    obtain ⟨ha, hb⟩ := known p (by simp)
    rcases result : s.merge p.1 p.2 with ⟨outcome, s'⟩
    simp only [mergeAll, result] at failed ⊢
    cases outcome with
    | error c' =>
      obtain rfl : c' = c := Except.error.inj failed
      have alike := alike_of_failed_merge ha hb (c := c') (by rw [result])
      rw [result] at alike
      exact ⟨0, p, s, rfl, rfl, by rw [result], alike⟩
    | ok _ =>
      have size := (kept_merge ha hb).1
      rw [result] at size
      obtain ⟨k, q, t, at_k, before, refused, alike⟩ := ih (fun q later => by
        rw [size]
        exact known q (List.mem_cons_of_mem _ later)) failed
      refine ⟨k + 1, q, t, by simpa using at_k, ?_, refused, alike⟩
      rw [List.take_succ_cons, merges, List.map_cons, performAll]
      simp only [perform, result, Except.map]
      exact before

end ClientScript.Typings
