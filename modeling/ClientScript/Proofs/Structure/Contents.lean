import ClientScript.Proofs.Structure.Simulation
import Mathlib.Data.List.Flatten
import Mathlib.Data.List.Perm.Basic

/-!
What code and trees consist of: statements, conditions and the expressions of switches, each as
often as it is written. The contents of a plan are those of its block and of the blocks folded
into its test, and the pieces of a plan consist of that and of its arms, in this order.
-/
namespace ClientScript

def Expr.isShort : Expr → Bool
  | .op opcode [_, _] _ _ _ => opcode = .shortOr ∨ opcode = .shortAnd
  | _ => false

def Expr.leaves : Expr → List Expr
  | .op opcode [left, right] results typings dot =>
    if opcode = .shortOr ∨ opcode = .shortAnd then left.leaves ++ right.leaves
    else [.op opcode [left, right] results typings dot]
  | e => [e]

theorem Expr.leaves_of_not_isShort {e : Expr} (plain : e.isShort = false) : e.leaves = [e] := by
  unfold leaves
  split
  · rename_i opcode left right _ _ _
    have other : ¬ (opcode = .shortOr ∨ opcode = .shortAnd) := by simpa [isShort] using plain
    rw [if_neg other]
  · rfl

def Event.condition? : Event → Option Expr
  | .tests condition => some condition
  | .executes _ | .dispatches _ => none

def Event.dispatched? : Event → Option Expr
  | .dispatches expression => some expression
  | .executes _ | .tests _ => none

def testContents (statements : List Instruction) (test : Expr) : List Event :=
  statements.map .executes ++ test.leaves.map .tests

theorem testContents_append (first statements : List Instruction) (test : Expr) :
    testContents (first ++ statements) test =
      first.map .executes ++ testContents statements test := by
  simp [testContents]

namespace Tree

mutual

def pieceContents : Piece → List Event
  | .seq is => is.map .executes
  | .choice branches fallback => branchContents branches ++ optionContents fallback
  | .loop condition body => testContents condition.prelude condition.test ++ contents body
  | .switch expression cases default =>
    .dispatches expression :: (caseContents cases ++ optionContents default)

def contents : List Piece → List Event
  | [] => []
  | p :: ps => pieceContents p ++ contents ps

def branchContents : List (Condition × List Piece) → List Event
  | [] => []
  | (condition, body) :: rest =>
    testContents condition.prelude condition.test ++ contents body ++ branchContents rest

def caseContents : List (List Int32 × List Piece) → List Event
  | [] => []
  | (_, body) :: rest => contents body ++ caseContents rest

def optionContents : Option (List Piece) → List Event
  | none => []
  | some body => contents body

end

def conditions (t : Tree) : List Expr := (contents t).filterMap Event.condition?

def dispatched (t : Tree) : List Expr := (contents t).filterMap Event.dispatched?

end Tree

theorem executed_testContents (statements : List Instruction) (test : Expr) :
    executed (testContents statements test) = statements := by
  have none : executed (test.leaves.map .tests) = [] := by
    simp [executed, Event.statement?]
  rw [testContents, executed_append, executed_executes, none, List.append_nil]

namespace Tree

mutual

theorem executed_pieceContents (p : Piece) : executed (pieceContents p) = pieceStatements p := by
  cases p with
  | seq is => simp [pieceContents, pieceStatements]
  | choice branches fallback =>
    rw [pieceContents, pieceStatements, executed_append, executed_branchContents branches,
      executed_optionContents fallback]
  | loop condition body =>
    rw [pieceContents, pieceStatements, executed_append, executed_testContents,
      executed_contents body]
  | switch expression cases default =>
    have first : ∀ es, executed (.dispatches expression :: es) = executed es := fun es => rfl
    rw [pieceContents, pieceStatements, first, executed_append, executed_caseContents cases,
      executed_optionContents default]

theorem executed_contents (ps : List Piece) : executed (contents ps) = flatten ps := by
  cases ps with
  | nil => rfl
  | cons p ps =>
    rw [contents, flatten, executed_append, executed_pieceContents p, executed_contents ps]

theorem executed_branchContents (branches : List (Condition × List Piece)) :
    executed (branchContents branches) = branchStatements branches := by
  match branches with
  | [] => rfl
  | (condition, body) :: rest =>
    rw [branchContents, branchStatements, executed_append, executed_append, executed_testContents,
      executed_contents body, executed_branchContents rest]

theorem executed_caseContents (cases : List (List Int32 × List Piece)) :
    executed (caseContents cases) = caseStatements cases := by
  match cases with
  | [] => rfl
  | (_, body) :: rest =>
    rw [caseContents, caseStatements, executed_append, executed_contents body,
      executed_caseContents rest]

theorem executed_optionContents (body : Option (List Piece)) :
    executed (optionContents body) = optionStatements body := by
  cases body with
  | none => rfl
  | some body => exact executed_contents body

end

theorem contents_append (ps qs : List Piece) :
    contents (ps ++ qs) = contents ps ++ contents qs := by
  induction ps with
  | nil => rfl
  | cons p ps ih => rw [List.cons_append, contents, contents, ih, List.append_assoc]

theorem contents_attach (p : Piece) (ps : List Piece) :
    contents (attach p ps) = pieceContents p ++ contents ps := by
  unfold attach
  split <;> simp [contents, pieceContents]

theorem contents_attachAll (ps rest : List Piece) :
    contents (attachAll ps rest) = contents ps ++ contents rest := by
  induction ps with
  | nil => rfl
  | cons p ps ih =>
    have step : attachAll (p :: ps) rest = attach p (attachAll ps rest) := rfl
    rw [step, contents_attach, ih, contents, List.append_assoc]

theorem contents_sequence (is : List Instruction) :
    contents (sequence is) = is.map .executes := by
  cases is <;> simp [sequence, contents, pieceContents]

theorem contents_ofPieces (ps : List Piece) : contents (ofPieces ps) = contents ps := by
  cases ps <;> simp [ofPieces, empty, contents, pieceContents]

theorem branchContents_append (xs ys : List (Condition × List Piece)) :
    branchContents (xs ++ ys) = branchContents xs ++ branchContents ys := by
  induction xs with
  | nil => rfl
  | cons x xs ih =>
    rw [List.cons_append, branchContents, branchContents, ih]
    simp only [List.append_assoc]

/-- Nothing is lost when a fallback continues the branches. -/
theorem contents_collapse {ps : List Piece} (branched : Branched ps)
    (branches : List (Condition × Tree)) :
    contents [collapse branches ps] = branchContents branches ++ contents ps := by
  unfold collapse
  split
  · simp [contents, pieceContents, optionContents]
  · simp [contents, pieceContents, branchContents_append]
  · rename_i is inner fallback
    obtain ⟨⟨c, body⟩, others, rfl⟩ :=
      List.exists_cons_of_ne_nil (branched inner fallback (by simp))
    simp [contents, pieceContents, branchContents_append, prepend, branchContents, testContents]
  · simp [contents, pieceContents, optionContents]
  · simp [contents, pieceContents, optionContents]

theorem caseContents_zip (keys : List (List Int32)) (bodies : List (List Piece))
    (length : keys.length = bodies.length) :
    caseContents (keys.zip (bodies.map ofPieces)) = bodies.flatMap contents := by
  induction keys generalizing bodies with
  | nil =>
    rw [List.eq_nil_of_length_eq_zero length.symm]
    rfl
  | cons key keys ih =>
    match bodies, length with
    | body :: bodies, length =>
      rw [List.map_cons, List.zip_cons_cons, caseContents, contents_ofPieces,
        ih bodies (Nat.succ.inj length), List.flatMap_cons]

end Tree

namespace Exit

def contents : Exit → List Event
  | .tests condition _ _ => condition.leaves.map .tests
  | .dispatches expression _ _ => [.dispatches expression]
  | .returns | .falls _ | .jumps _ => []

def condition? : Exit → Option Expr
  | .tests condition _ _ => some condition
  | .returns | .falls _ | .jumps _ | .dispatches .. => none

def dispatched? : Exit → Option Expr
  | .dispatches expression _ _ => some expression
  | .returns | .falls _ | .jumps _ | .tests .. => none

theorem executed_contents (e : Exit) : executed e.contents = [] := by
  cases e <;> simp [contents, executed, Event.statement?]

theorem dispatched_contents (e : Exit) :
    e.contents.filterMap Event.dispatched? = e.dispatched?.toList := by
  cases e <;> simp [contents, dispatched?, Event.dispatched?]

theorem conditions_contents {e : Exit} (plain : ∀ c, e.condition? = some c → c.isShort = false) :
    e.contents.filterMap Event.condition? = e.condition?.toList := by
  cases e with
  | tests condition taken fallthrough =>
    simp [contents, condition?, Expr.leaves_of_not_isShort (plain condition rfl), Event.condition?]
  | returns | falls | jumps | dispatches => rfl

end Exit

namespace Block

def contents (b : Block) : List Event := b.statements.map .executes ++ b.exit.contents

theorem executed_contents (b : Block) : executed b.contents = b.statements := by
  rw [contents, executed_append, executed_executes, b.exit.executed_contents, List.append_nil]

theorem dispatched_contents (b : Block) :
    b.contents.filterMap Event.dispatched? = b.exit.dispatched?.toList := by
  rw [contents, List.filterMap_append, b.exit.dispatched_contents]
  simp [Event.dispatched?]

theorem conditions_contents {b : Block}
    (plain : ∀ c, b.exit.condition? = some c → c.isShort = false) :
    b.contents.filterMap Event.condition? = b.exit.condition?.toList := by
  rw [contents, List.filterMap_append, Exit.conditions_contents plain]
  simp [Event.condition?]

end Block

def Plan.contents : Plan → List Event
  | .straight statements _ => statements.map .executes
  | .loop condition .. => testContents condition.prelude condition.test
  | .guarded statements test .. | .forked statements test .. => testContents statements test
  | .switched statements expression .. => statements.map .executes ++ [.dispatches expression]

theorem Plan.contents_assemble (plan : Plan) {bodies : List (List Piece)}
    (length : bodies.length = plan.arms.length)
    (branched : ∀ body ∈ bodies, Tree.Branched body) :
    Tree.contents (plan.assemble bodies) = plan.contents ++ bodies.flatMap Tree.contents := by
  cases plan with
  | straight statements follow =>
    rw [List.eq_nil_of_length_eq_zero length]
    simp [assemble, contents, Tree.contents_sequence]
  | loop condition header inside outside =>
    obtain ⟨body, rfl⟩ := List.length_eq_one_iff.1 length
    simp [assemble, contents, Tree.contents, Tree.pieceContents, Tree.contents_ofPieces]
  | guarded statements test negated arm scope follow =>
    obtain ⟨body, rfl⟩ := List.length_eq_one_iff.1 length
    simp [assemble, contents, testContents, Tree.contents_append, Tree.contents_sequence,
      Tree.contents, Tree.pieceContents, Tree.branchContents, Tree.optionContents,
      Tree.contents_ofPieces]
  | forked statements test negated first second scope follow =>
    obtain ⟨body, other, rfl⟩ := List.length_eq_two.1 length
    have collapsed := Tree.contents_collapse (branched other (by simp))
      [(⟨[], test, negated⟩, Tree.ofPieces body)]
    simp [assemble, contents, testContents, Tree.contents_append, Tree.contents_sequence,
      collapsed, Tree.branchContents, Tree.contents_ofPieces]
  | switched statements expression cases default scope follow =>
    have count : bodies.length = cases.length + 1 := by simpa [arms] using length
    obtain ⟨others, last, rfl⟩ : ∃ others last, bodies = others ++ [last] :=
      ⟨_, _, (List.dropLast_append_getLast (List.ne_nil_of_length_eq_add_one count)).symm⟩
    have keys : (cases.map Prod.fst).length = others.length := by simpa using count.symm
    simp only [assemble, contents, Tree.contents_append, Tree.contents_sequence, Tree.contents,
      Tree.pieceContents, List.dropLast_concat, List.getLastD_concat,
      Tree.caseContents_zip _ _ keys, List.flatMap_append, List.flatMap_cons, List.flatMap_nil,
      List.append_nil, List.append_assoc, List.cons_append, List.nil_append]
    cases last <;> rfl

end ClientScript
