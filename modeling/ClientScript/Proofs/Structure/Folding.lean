import ClientScript.Proofs.Run.Blocks
import ClientScript.Proofs.Run.Tree
import ClientScript.Proofs.Structure.Building

/-!
Folded tests. A test with blocks folded in stands for the exits of all of them: from the first
block control comes where the answer says, with the same conditions asked in the same order, and
what else the folded blocks do are copies.
-/
namespace ClientScript

theorem Marks.Adds.mark {m m' : Marks} {x : Nat} (h : m.Adds m' x) (v : Nat) :
    m.Adds (m'.mark v) x :=
  ⟨by simp [Marks.has_mark, h.1], h.2⟩

theorem Marks.has_mark_self {m : Marks} {v : Nat} (opened : m.isOpen v) : (m.mark v).has v := by
  simp [Marks.has_mark, (Marks.isOpen_iff.1 opened).1]

def Test.leadsTo (t : Test) (answer : Bool) : Nat := if answer then t.taken else t.fallthrough

namespace Layout

variable {l : Layout}

/-- The block that a test takes in is where it leads to with one answer. -/
structure Takes (l : Layout) (placed : Marks) (scope : Scope) (t : Test) (f : Fold)
    (side : Bool) : Prop where
  candidate : f.block = t.leadsTo side
  shared : (extendTest t f).leadsTo (!side) = t.leadsTo (!side)
  joins : ∀ (o : Oracle) met, o.evaluate met (joinTests f.opcode t.expression f.condition) =
    if (o.evaluate met t.expression).1 = side then
      ((o.evaluate (met + decisions (o.evaluate met t.expression).2) f.condition).1,
        (o.evaluate met t.expression).2 ++
          (o.evaluate (met + decisions (o.evaluate met t.expression).2) f.condition).2)
    else o.evaluate met t.expression
  block : ∃ b x y, l.graph.block? f.block = some b ∧ b.exit = .tests f.condition x y ∧
    b.statements = f.statements ∧ f.taken = l.graph.forward x ∧ f.fallthrough = l.graph.forward y
  copies : ∀ i ∈ f.statements, i.isCopy = true
  opened : placed.isOpen f.block
  inside : scope.endsAt f.block = false

section

variable (wf : l.graph.WellFormed)

include wf

theorem foldBy?_some {placed : Marks} {scope : Scope} {folded : List Nat} {t : Test}
    {opcode : Opcode} {candidate : Nat} {f : Fold}
    (h : l.foldBy? placed scope folded t opcode candidate = some f) :
    (f.block = candidate ∧ f.opcode = opcode ∧
      if opcode = .shortOr then f.taken = t.taken else f.fallthrough = t.fallthrough) ∧
    (∃ b x y, l.graph.block? f.block = some b ∧ b.exit = .tests f.condition x y ∧
      b.statements = f.statements ∧ f.taken = l.graph.forward x ∧
      f.fallthrough = l.graph.forward y) ∧
    (∀ i ∈ f.statements, i.isCopy = true) ∧ placed.isOpen f.block ∧
      scope.endsAt f.block = false := by
  unfold foldBy? at h
  split at h
  · simp at h
  rename_i b found
  split at h
  · rename_i c x y exit
    simp only [Option.ite_none_right_eq_some, Bool.and_eq_true, Option.some.injEq] at h
    obtain ⟨⟨foldable, shared⟩, rfl⟩ := h
    simp only [isFoldable, wf.index found, Bool.and_eq_true, List.all_eq_true,
      Bool.not_eq_true'] at foldable
    obtain ⟨⟨⟨⟨⟨opened, copies⟩, -⟩, inside⟩, -⟩, -⟩ := foldable
    refine ⟨⟨rfl, rfl, ?_⟩, ⟨b, x, y, found, exit, rfl, rfl, rfl⟩, copies, opened, inside⟩
    by_cases short : opcode = .shortOr
    · rw [if_pos short] at shared ⊢
      simpa using shared
    · rw [if_neg short] at shared ⊢
      simpa using shared
  · simp at h

theorem fold?_takes {placed : Marks} {scope : Scope} {folded : List Nat} {t : Test} {f : Fold}
    (h : l.fold? placed scope folded t = some f) : ∃ side, l.Takes placed scope t f side := by
  rcases Option.or_eq_some_iff.1 h with h | ⟨-, h⟩
  · obtain ⟨⟨candidate, opcode, shared⟩, block, copies, opened, inside⟩ := foldBy?_some wf h
    refine ⟨false, candidate, shared, ?_, block, copies, opened, inside⟩
    intro o met
    rw [opcode, Oracle.evaluate_or]
    cases (o.evaluate met t.expression).1 <;> simp
  · obtain ⟨⟨candidate, opcode, shared⟩, block, copies, opened, inside⟩ := foldBy?_some wf h
    refine ⟨true, candidate, shared, ?_, block, copies, opened, inside⟩
    intro o met
    rw [opcode, Oracle.evaluate_and]

end

/-- A test at a block, with the blocks marked for it: control comes from the block to where the
    test leads, with each answer through those blocks alone. -/
structure Stands (l : Layout) (scope : Scope) (n : Nat) (b : Block) (before after : Marks)
    (t : Test) : Prop where
  branches : ∃ c x y, b.exit = .tests c x y
  grows : ∀ x, before.has x → after.has x
  inside : ∀ x, before.Adds after x → scope.endsAt x = false
  copies : ∀ i ∈ t.prelude, i.isCopy = true
  works : ∀ answer, ∃ s, t.leadsTo answer = l.graph.forward s
  leads : ∀ answer, l.graph.Through (fun x => x = n ∨ before.Adds after x) n (t.leadsTo answer)
  runs : ∀ (o : Oracle) met, ∃ a later s, (Machine.ofBlocks l.graph).run o (a + 1) met n =
      (b.statements.map .executes ++ later, some s) ∧
    asked later = (o.evaluate met t.expression).2 ∧ (executed later).Sublist t.prelude ∧
    l.graph.forward s = t.leadsTo (o.evaluate met t.expression).1

/-- Copies aside, what is shown at a test is the statements of its block and what it asks. -/
theorem Stands.shows {scope : Scope} {n : Nat} {b : Block} {before after : Marks} {t : Test}
    (h : l.Stands scope n b before after t) (o : Oracle) (met : Nat) : ∃ a es s,
      (Machine.ofBlocks l.graph).run o (a + 1) met n = (es, some s) ∧
      shown es = shown (b.statements.map .executes ++ (o.evaluate met t.expression).2) ∧
      l.graph.forward s = t.leadsTo (o.evaluate met t.expression).1 := by
  obtain ⟨a, later, s, run, asks, moved, at_s⟩ := h.runs o met
  have copies : shown later = asked later :=
    shown_eq_asked fun i member => h.copies i (moved.subset member)
  refine ⟨a, _, s, run, ?_, at_s⟩
  rw [shown_append, shown_append, copies, ← asks]
  congr 1
  refine (List.filter_eq_self.2 fun e member => ?_).symm
  cases e with
  | executes i => simp [asked, Event.isDecision] at member
  | tests | dispatches => rfl

theorem stands_alone {scope : Scope} {n : Nat} {b : Block} {placed : Marks} {c : Expr} {x y : Nat}
    (found : l.graph.block? n = some b) (exit : b.exit = .tests c x y) :
    l.Stands scope n b placed placed
      ⟨[], c, l.graph.forward x, l.graph.forward y⟩ := by
  refine ⟨⟨c, x, y, exit⟩, fun _ h => h, fun _ h => absurd h.1 h.2, by simp, ?_, ?_, ?_⟩
  · intro answer
    cases answer
    · exact ⟨y, rfl⟩
    · exact ⟨x, rfl⟩
  · intro answer
    cases answer
    · exact .step (.inl rfl) found (by simp [exit, Exit.successors, Exit.edges]) (.here _)
    · exact .step (.inl rfl) found (by simp [exit, Exit.successors, Exit.edges]) (.here _)
  · intro o met
    have run := FlowGraph.run_block o met found
    rw [exit] at run
    obtain ⟨asks, none⟩ := o.evaluate_asks met c
    refine ⟨0, _, _, run, asks, none ▸ .refl _, ?_⟩
    generalize (o.evaluate met c).1 = answer
    cases answer <;> rfl

theorem Stands.extend {scope : Scope} {n : Nat} {b : Block} {before placed : Marks} {t : Test}
    {f : Fold} {side : Bool} (h : l.Stands scope n b before placed t)
    (takes : l.Takes placed scope t f side) :
    l.Stands scope n b before (placed.mark f.block) (extendTest t f) := by
  obtain ⟨b', x, y, found, exit, statements, taken, fallthrough⟩ := takes.block
  have fresh : before.Adds (placed.mark f.block) f.block :=
    ⟨Marks.has_mark_self takes.opened, fun old =>
      (Marks.isOpen_iff.1 takes.opened).2 (h.grows _ old)⟩
  refine ⟨h.branches, ?_, ?_, ?_, ?_, ?_, ?_⟩
  · intro x old
    simp [Marks.has_mark, h.grows x old]
  · intro x added
    by_cases same : x = f.block
    · exact same ▸ takes.inside
    · refine h.inside x ⟨?_, added.2⟩
      simpa [Marks.has_mark, same] using added.1
  · intro i member
    rcases List.mem_append.1 member with old | new
    · exact h.copies i old
    · exact takes.copies i new
  · intro answer
    cases answer
    · exact ⟨y, fallthrough⟩
    · exact ⟨x, taken⟩
  · intro answer
    have first := (h.leads side).mono (T := fun x => x = n ∨ before.Adds (placed.mark f.block) x)
      fun x inside => inside.imp_right (Marks.Adds.mark · _)
    rw [← takes.candidate] at first
    refine first.trans ?_
    cases answer
    · refine .step (.inr fresh) found (s := y) (by simp [exit, Exit.successors, Exit.edges]) ?_
      exact fallthrough ▸ .here _
    · refine .step (.inr fresh) found (s := x) (by simp [exit, Exit.successors, Exit.edges]) ?_
      exact taken ▸ .here _
  · intro o met
    obtain ⟨a, later, s, run, asks, moved, at_s⟩ := h.runs o met
    have met_here : decisions (b.statements.map .executes ++ later) =
        decisions (o.evaluate met t.expression).2 := by
      rw [decisions_append, decisions_executes, Nat.zero_add, ← asks, decisions_asked]
    have joins : o.evaluate met (extendTest t f).expression = _ := takes.joins o met
    rw [joins]
    by_cases answer : (o.evaluate met t.expression).1 = side
    · -- The answer leaves the folded block to ask.
      rw [if_pos answer]
      rw [answer, ← takes.candidate] at at_s
      have onward : ∀ answer : Bool, l.graph.forward (if answer then x else y) =
          (extendTest t f).leadsTo answer := by
        intro answer
        cases answer
        · exact fallthrough.symm
        · exact taken.symm
      obtain ⟨c, hops⟩ := FlowGraph.run_forward (g := l.graph) o
        (met + decisions (b.statements.map .executes ++ later)) s
      rw [at_s] at hops
      have both := Machine.run_trans run (Machine.run_trans hops (FlowGraph.run_block o _ found))
      rw [exit, List.append_assoc] at both
      obtain ⟨asks', none_after⟩ :=
        o.evaluate_asks (met + decisions (o.evaluate met t.expression).2) f.condition
      refine ⟨a + 1 + c, _, _, both, ?_, ?_, ?_⟩
      · rw [List.nil_append, asked_append, asked_append, asked_executes, asks, met_here,
          decisions_nil, Nat.add_zero, Exit.asks, asks']
        rfl
      · rw [List.nil_append, executed_append, executed_append, executed_executes, statements,
          met_here, decisions_nil, Nat.add_zero, Exit.asks, none_after, List.append_nil]
        exact moved.append_right _
      · rw [met_here]
        exact onward _
    · rw [if_neg answer]
      refine ⟨a, later, s, run, asks, moved.trans (List.sublist_append_left ..), ?_⟩
      have other : (o.evaluate met t.expression).1 = !side := by
        cases side <;> simpa using answer
      rw [at_s, other, takes.shared]

theorem Stands.foldAll {scope : Scope} {n : Nat} {b : Block} {before : Marks}
    (wf : l.graph.WellFormed) {budget : Nat} {placed : Marks}
    {folded : List Nat} {t : Test} (h : l.Stands scope n b before placed t) :
    l.Stands scope n b before (l.foldAll scope budget placed folded t).1
      (l.foldAll scope budget placed folded t).2 := by
  induction budget generalizing placed folded t with
  | zero => exact h
  | succ budget ih =>
    rw [Layout.foldAll]
    split
    · exact h
    · rename_i f taken
      obtain ⟨side, takes⟩ := fold?_takes wf taken
      exact ih (h.extend takes)

theorem stands_testOf (wf : l.graph.WellFormed) (placed : Marks)
    (scope : Scope) {n : Nat} {b : Block} {c : Expr} {x y : Nat} (found : l.graph.block? n = some b)
    (exit : b.exit = .tests c x y) :
    l.Stands scope n b placed (l.testOf placed scope n c x y).1
      (l.testOf placed scope n c x y).2 :=
  (stands_alone found exit).foldAll wf

end Layout

end ClientScript
