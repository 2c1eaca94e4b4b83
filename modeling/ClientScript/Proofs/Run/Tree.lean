import ClientScript.Proofs.Flow.Blocks
import ClientScript.Proofs.Run.Machine
import ClientScript.Structure.Test
import ClientScript.Structure.Tree

/-!
Trees run as lists of tasks. Loading a tree puts its statements and preludes in front as they
come; a choice waits with one branch at a time, a loop comes back behind its body.
-/
namespace ClientScript

inductive Task where
  | execute (i : Instruction)
  | enter (test : Expr) (negated : Bool) (body : Tree) (others : List (Condition × Tree))
      (fallback : Option Tree)
  | iterate (condition : Condition) (body : Tree)
  | select (expression : Expr) (cases : List (List Int32 × Tree)) (default : Option Tree)

namespace Tree

mutual

def load : List Piece → List Task
  | [] => []
  | .seq is :: ps => is.map .execute ++ load ps
  | .choice branches fallback :: ps => loadBranches branches fallback ++ load ps
  | .loop condition body :: ps =>
    condition.prelude.map .execute ++ .iterate condition body :: load ps
  | .switch expression cases default :: ps => .select expression cases default :: load ps

def loadBranches : List (Condition × Tree) → Option Tree → List Task
  | [], none => []
  | [], some fallback => load fallback
  | (condition, body) :: others, fallback =>
    condition.prelude.map .execute ++ [.enter condition.test condition.negated body others fallback]

end

def chosen (v : Int32) (cases : List (List Int32 × Tree)) (default : Option Tree) : List Piece :=
  match cases.find? fun c => c.1.contains v with
  | some c => c.2
  | none => default.getD []

end Tree

def Machine.ofTree : Machine (List Task) where
  step o met
    | [] => ([], none)
    | .execute i :: k => ([.executes i], if i.isReturn then none else some k)
    | .enter test negated body others fallback :: k =>
      let answer := o.evaluate met test
      (answer.2,
        some ((if answer.1 != negated then Tree.load body
          else Tree.loadBranches others fallback) ++ k))
    | .iterate condition body :: k =>
      let answer := o.evaluate met condition.test
      (answer.2,
        some (if answer.1 != condition.negated then
            Tree.load body ++ Tree.load [.loop condition body] ++ k
          else k))
    | .select expression cases default :: k =>
      ([.dispatches expression], some (Tree.load (Tree.chosen (o.value met) cases default) ++ k))

theorem Oracle.evaluate_or (o : Oracle) (met : Nat) (left right : Expr) :
    o.evaluate met (Layout.joinTests .shortOr left right) =
      if (o.evaluate met left).1 then o.evaluate met left
      else ((o.evaluate (met + decisions (o.evaluate met left).2) right).1,
        (o.evaluate met left).2 ++
          (o.evaluate (met + decisions (o.evaluate met left).2) right).2) := by
  rw [Layout.joinTests, Oracle.evaluate]
  simp

theorem Oracle.evaluate_and (o : Oracle) (met : Nat) (left right : Expr) :
    o.evaluate met (Layout.joinTests .shortAnd left right) =
      if (o.evaluate met left).1 then
        ((o.evaluate (met + decisions (o.evaluate met left).2) right).1,
          (o.evaluate met left).2 ++
            (o.evaluate (met + decisions (o.evaluate met left).2) right).2)
      else o.evaluate met left := by
  rw [Layout.joinTests, Oracle.evaluate]
  simp [Opcode.shortAnd, Opcode.shortOr]

namespace Tree

theorem load_nil : load [] = [] := by simp [load]

theorem load_append (ps qs : List Piece) : load (ps ++ qs) = load ps ++ load qs := by
  induction ps with
  | nil => simp [load]
  | cons p ps ih => cases p <;> simp [load, ih]

theorem load_attach (p : Piece) (ps : List Piece) : load (attach p ps) = load (p :: ps) := by
  unfold attach
  split <;> simp [load]

theorem load_attachAll (ps rest : List Piece) :
    load (attachAll ps rest) = load ps ++ load rest := by
  induction ps with
  | nil => simp [attachAll, load]
  | cons p ps ih =>
    have : attachAll (p :: ps) rest = attach p (attachAll ps rest) := rfl
    rw [this, load_attach, ← List.singleton_append, load_append, ih, ← List.append_assoc,
      ← load_append]
    rfl

theorem load_sequence (is : List Instruction) : load (sequence is) = is.map .execute := by
  cases is <;> simp [sequence, load]

theorem load_loop (condition : Condition) (body : Tree) :
    load [.loop condition body] =
      condition.prelude.map .execute ++ [.iterate condition body] := by simp [load]

theorem load_choice (condition : Condition) (body : Tree) :
    load [.choice [(condition, body)] none] = condition.prelude.map .execute ++
      [.enter condition.test condition.negated body [] none] := by simp [load, loadBranches]

theorem load_switch (expression : Expr) (cases : List (List Int32 × Tree))
    (default : Option Tree) :
    load [.switch expression cases default] = [.select expression cases default] := by simp [load]

theorem loadBranches_nil : loadBranches [] none = [] := by simp [loadBranches]

theorem load_ofPieces (ps : List Piece) : load (ofPieces ps) = load ps := by
  cases ps <;> simp [ofPieces, empty, load]

def Branched (ps : List Piece) : Prop :=
  ∀ branches fallback, .choice branches fallback ∈ ps → branches ≠ []

/-- The branches taken in by a collapse do what the fallback would have done. -/
theorem load_collapse {ps : List Piece} (branched : Branched ps) (condition : Condition)
    (body : Tree) : ∃ others fallback, loadBranches others fallback = load ps ∧
      load [collapse [(condition, body)] ps] = condition.prelude.map .execute ++
        [.enter condition.test condition.negated body others fallback] := by
  unfold collapse
  split
  · exact ⟨[], none, by simp [load, loadBranches], by simp [load, loadBranches]⟩
  · rename_i inner fallback
    exact ⟨inner, fallback, by simp [load], by simp [load, loadBranches]⟩
  · rename_i is inner fallback
    obtain ⟨⟨c, b⟩, others, rfl⟩ :=
      List.exists_cons_of_ne_nil (branched inner fallback (by simp))
    refine ⟨prepend is ((c, b) :: others), fallback, ?_, ?_⟩
    · simp [load, loadBranches, prepend]
    · simp [load, loadBranches]
  · exact ⟨[], none, by simp [load, loadBranches], by simp [load, loadBranches]⟩
  · exact ⟨[], some ps, by simp [loadBranches], by simp [load, loadBranches]⟩

theorem run_statements (o : Oracle) (k : List Task) :
    ∀ (is : List Instruction) (met : Nat), (∀ i ∈ is, i.isReturn = false) →
      Machine.ofTree.run o is.length met (is.map .execute ++ k) =
        (is.map .executes, some k) := by
  intro is
  induction is with
  | nil => intro met _; rfl
  | cons i is ih =>
    intro met plain
    have first : Machine.ofTree.run o 1 met (.execute i :: (is.map .execute ++ k)) =
        ([.executes i], some (is.map .execute ++ k)) :=
      Machine.run_one (by simp [Machine.ofTree, plain i])
    have both := Machine.run_trans first (ih _ fun i member => plain i (by simp [member]))
    rwa [Nat.add_comm] at both

theorem run_statements_then (o : Oracle) (met : Nat) {is : List Instruction} {k : List Task}
    {es : List Event} {r : Option (List Task)} (plain : ∀ i ∈ is, i.isReturn = false)
    (stepped : Machine.ofTree.step o met k = (es, r)) :
    Machine.ofTree.run o (is.length + 1) met (is.map .execute ++ k) =
      (is.map .executes ++ es, r) :=
  Machine.run_trans (run_statements o k is met plain) (Machine.run_one (by simpa using stepped))

end Tree

end ClientScript
