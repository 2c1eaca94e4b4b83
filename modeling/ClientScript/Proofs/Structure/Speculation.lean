import ClientScript.Proofs.Lift.Copies
import ClientScript.Proofs.Lift.Interpretation
import ClientScript.Proofs.Structure.Preservation
import ClientScript.Script.Builder

/-!
Speculation. What is folded into a test runs before the test, also where the code would have
decided without it. Main statement: for interpreted code this writes nothing but slots of the
operand stack, and is not seen at any test, exactly if no store is folded.
-/
namespace ClientScript

def Event.isSlotCopy : Event → Bool
  | .executes i => i.isCopy && i.onlySlots
  | .tests _ | .dispatches _ => false

/-- The events without copies into slots of the operand stack. -/
def lasting (es : List Event) : List Event := es.filter fun e => !e.isSlotCopy

theorem lasting_append (es fs : List Event) : lasting (es ++ fs) = lasting es ++ lasting fs :=
  List.filter_append ..

theorem lasting_eq_asked {es : List Event}
    (slots : ∀ i ∈ executed es, i.isCopy = true ∧ i.onlySlots = true) : lasting es = asked es := by
  refine List.filter_congr fun e member => ?_
  cases e with
  | executes i =>
    have := slots i (List.mem_filterMap.2 ⟨_, member, rfl⟩)
    simp [Event.isSlotCopy, Event.isDecision, this]
  | tests | dispatches => rfl

theorem lasting_asked (es : List Event) : lasting (asked es) = asked es := by
  refine List.filter_eq_self.2 fun e member => ?_
  cases e with
  | executes i => simp [asked, Event.isDecision] at member
  | tests | dispatches => rfl

def Plan.condition? : Plan → Option Condition
  | .loop condition .. => some condition
  | .guarded statements test negated .. | .forked statements test negated .. =>
    some ⟨statements, test, negated⟩
  | .straight .. | .switched .. => none

theorem Tree.run_condition {plan : Plan} {c : Condition} (tests : plan.condition? = some c)
    (plain : ∀ i ∈ c.prelude, i.isReturn = false) {bodies : List (List Piece)}
    (branched : Branched (bodies.getLastD [])) (rest : List Piece) (k : List Task) (o : Oracle)
    (met : Nat) : ∃ k', Machine.ofTree.run o (c.prelude.length + 1) met
      (load (attachAll (plan.assemble bodies) rest) ++ k) =
        (c.prelude.map .executes ++ (o.evaluate met c.test).2, some k') := by
  rw [load_attachAll, List.append_assoc]
  generalize load rest ++ k = k
  cases plan with
  | straight | switched => simp [Plan.condition?] at tests
  | loop condition =>
    obtain rfl := Option.some.inj tests
    rw [Plan.assemble, load_loop, List.append_assoc]
    exact ⟨_, run_statements_then o met plain rfl⟩
  | guarded =>
    obtain rfl := Option.some.inj tests
    rw [Plan.assemble, load_append, load_sequence, load_choice, List.append_assoc]
    exact ⟨_, run_statements_then o met plain rfl⟩
  | forked =>
    obtain rfl := Option.some.inj tests
    obtain ⟨others, fallback, -, loaded⟩ := load_collapse branched _ _
    rw [Plan.assemble, load_append, load_sequence, loaded, List.append_assoc]
    exact ⟨_, run_statements_then o met plain rfl⟩

namespace Layout

variable (l : Layout)

def foldsFrom (scope : Scope) : (budget : Nat) → Marks → List Nat → Test → List Fold
  | 0, _, _, _ => []
  | budget + 1, placed, folded, t =>
    match l.fold? placed scope folded t with
    | none => []
    | some f =>
      f :: foldsFrom scope budget (placed.mark f.block) (folded ++ [f.block]) (extendTest t f)

/-- The scope of a test. The test of a loop header may take in blocks anywhere. -/
def testScope (v : Visit) : Scope := if l.isLoopHeader v.block.index then .free else v.scope

def folds (v : Visit) : List Fold :=
  match v.block.exit with
  | .tests condition taken fallthrough =>
    l.foldsFrom (l.testScope v) l.graph.size v.placed [v.block.index]
      ⟨[], condition, l.graph.forward taken, l.graph.forward fallthrough⟩
  | _ => []

/-- At the test of a block, whatever the answers, code and tree show the same but for copies into
    slots of the operand stack. -/
def Unobserved (v : Visit) : Prop :=
  ∀ plan c, l.planAt? v = some plan → plan.condition? = some c →
    ∀ (bodies : List (List Piece)) rest k, Tree.Branched (bodies.getLastD []) → ∀ o met,
      ∃ a es s fs k', (Machine.ofBlocks l.graph).run o a met v.block.index = (es, some s) ∧
        Machine.ofTree.run o (c.prelude.length + 1) met
          (Tree.load (Tree.attachAll (plan.assemble bodies) rest) ++ k) = (fs, some k') ∧
        lasting es = lasting fs

variable {l}

theorem prelude_foldAll {scope : Scope} {budget : Nat} {placed : Marks} {folded : List Nat}
    {t : Test} : (l.foldAll scope budget placed folded t).2.prelude =
      t.prelude ++ (l.foldsFrom scope budget placed folded t).flatMap Fold.statements := by
  induction budget generalizing placed folded t with
  | zero => simp [foldAll, foldsFrom]
  | succ budget ih =>
    rw [foldAll, foldsFrom]
    cases l.fold? placed scope folded t with
    | none => simp
    | some f => simp [ih, extendTest]

theorem prelude_testOf {v : Visit} {condition : Expr} {x y : Nat}
    (exit : v.block.exit = .tests condition x y) :
    (l.testOf v.placed (l.testScope v) v.block.index condition x y).2.prelude =
      (l.folds v).flatMap Fold.statements := by
  rw [testOf, prelude_foldAll, folds, exit, List.nil_append]

theorem mem_foldsFrom (wf : l.graph.WellFormed) {scope : Scope} {budget : Nat} {placed : Marks}
    {folded : List Nat} {t : Test} {f : Fold}
    (member : f ∈ l.foldsFrom scope budget placed folded t) :
    ∃ b, l.graph.block? f.block = some b ∧ b.statements = f.statements ∧
      ∀ i ∈ f.statements, i.isCopy = true := by
  induction budget generalizing placed folded t with
  | zero => simp [foldsFrom] at member
  | succ budget ih =>
    rw [foldsFrom] at member
    split at member
    · simp at member
    · rename_i f' taken
      rcases List.mem_cons.1 member with rfl | later
      · obtain ⟨side, takes⟩ := fold?_takes wf taken
        obtain ⟨b, x, y, found, -, statements, -⟩ := takes.block
        exact ⟨b, found, statements, takes.copies⟩
      · exact ih later

theorem mem_folds (wf : l.graph.WellFormed) {v : Visit} {f : Fold} (member : f ∈ l.folds v) :
    ∃ b, l.graph.block? f.block = some b ∧ b.statements = f.statements ∧
      ∀ i ∈ f.statements, i.isCopy = true := by
  unfold folds at member
  split at member
  · exact mem_foldsFrom wf member
  · simp at member

theorem condition_of_planAt {v : Visit} {plan : Plan} {c : Condition}
    (planned : l.planAt? v = some plan) (tests : plan.condition? = some c) :
    ∃ condition x y, v.block.exit = .tests condition x y ∧
      c.prelude = v.block.statements ++ (l.folds v).flatMap Fold.statements ∧
      c.test = (l.testOf v.placed (l.testScope v) v.block.index condition x y).2.expression := by
  obtain ⟨⟨placed', plan'⟩, ok, rfl⟩ := Option.map_eq_some_iff.1 planned
  unfold Layout.plan at ok
  split at ok
  · rename_i header
    unfold planLoop at ok
    split at ok
    · rename_i condition x y exit
      refine ⟨condition, x, y, exit, ?_⟩
      rw [← prelude_testOf exit, testScope, if_pos header]
      simp only at ok
      split at ok <;> simp only [Except.toOption, Option.some.injEq, Prod.mk.injEq,
        reduceCtorEq] at ok
      all_goals
        obtain ⟨-, rfl⟩ := ok
        obtain rfl := Option.some.inj tests
        exact ⟨rfl, rfl⟩
    · simp [Except.toOption] at ok
  · rename_i plain
    split at ok
    · rename_i condition x y exit
      refine ⟨condition, x, y, exit, ?_⟩
      rw [← prelude_testOf exit, testScope, if_neg plain]
      simp only [Except.toOption, Option.some.injEq] at ok
      have same : plan' = (l.planBranch v.placed v.block condition x y v.scope).2 := by rw [ok]
      subst same
      unfold planBranch at tests
      simp only at tests
      split at tests
      · split at tests
        · obtain rfl := Option.some.inj tests
          exact ⟨rfl, rfl⟩
        · split at tests <;>
          · obtain rfl := Option.some.inj tests
            exact ⟨rfl, rfl⟩
      · split at tests <;>
        · obtain rfl := Option.some.inj tests
          exact ⟨rfl, rfl⟩
    all_goals
      simp only [Except.toOption, Option.some.injEq, Prod.mk.injEq] at ok
      obtain ⟨-, rfl⟩ := ok
      simp [planSwitch, Plan.condition?] at tests

theorem unobserved_of_slots (wf : l.graph.WellFormed) {v : Visit} {n : Nat}
    (found : l.graph.block? n = some v.block)
    (slots : ∀ f ∈ l.folds v, ∀ i ∈ f.statements, i.onlySlots = true) : l.Unobserved v := by
  intro plan c planned tests bodies rest k branched o met
  obtain ⟨condition, x, y, exit, prelude, test⟩ := condition_of_planAt planned tests
  obtain rfl := wf.index found
  have folded : ∀ i ∈ (l.folds v).flatMap Fold.statements,
      i.isCopy = true ∧ i.onlySlots = true := by
    intro i member
    obtain ⟨f, among, inside⟩ := List.mem_flatMap.1 member
    obtain ⟨b, -, -, copies⟩ := mem_folds wf among
    exact ⟨copies i inside, slots f among i inside⟩
  have plain : ∀ i ∈ c.prelude, i.isReturn = false := by
    intro i member
    rw [prelude] at member
    rcases List.mem_append.1 member with own | moved
    · exact wf.no_return found (by simp [exit]) i own
    · exact Instruction.isReturn_of_isCopy (folded i moved).1
  have stands := stands_testOf wf v.placed (l.testScope v) found exit
  obtain ⟨a, later, s, run, asks, moved, -⟩ := stands.runs o met
  obtain ⟨k', tree⟩ := Tree.run_condition tests plain branched rest k o met
  refine ⟨a + 1, _, s, _, k', run, tree, ?_⟩
  rw [prelude_testOf exit] at moved
  have ahead : lasting (((l.folds v).flatMap Fold.statements).map .executes) = [] := by
    rw [lasting_eq_asked (by simpa using folded), asked_executes]
  rw [prelude, test, List.map_append, lasting_append, lasting_append, lasting_append, ahead,
    List.append_nil, lasting_eq_asked fun i member => folded i (moved.subset member), ← asks,
    lasting_asked]

end Layout

namespace Setting

variable {scripts : Corpus} {declarations : Declarations} {config : Config} {code : Script}
  {s : Stores} {script : Int32} {f : Function} {g : FlowGraph}

theorem slots_iff_no_store (lifts : (Setting.of scripts declarations config).Lifts script f)
    (found : scripts.get? script = some code) (graph : FlowGraph.ofFunction f = .ok g) {n : Nat}
    {b : Block} (block : g.block? n = some b) (copies : ∀ i ∈ b.statements, i.isCopy = true) :
    (∀ i ∈ b.statements, i.onlySlots = true) ↔ ∀ e ∈ b.entries, ∀ storage,
      (Table.ofFormat config.format).commandAt? code e.1 ≠ some (.store storage) := by
  obtain ⟨code', found', lifted⟩ := lifts
  obtain rfl : code' = code := Option.some.inj (found'.symm.trans found)
  have statement : ∀ e ∈ b.entries, e.2.isStatement = true → e.2 ∈ b.statements :=
    fun e member kept => List.mem_map.2 ⟨e, List.mem_filter.2 ⟨member, kept⟩, rfl⟩
  constructor
  · intro slots e member storage store
    obtain ⟨-, none⟩ | ⟨c, at_e, fits⟩ :=
      Context.lift_entry lifted (FlowGraph.entry_mem graph block member)
    · exact absurd (none.symm.trans store) (by simp)
    · obtain rfl : c = .store storage := Option.some.inj (at_e.symm.trans store)
      have stores := fits.stores
      simp only [Command.isStore, Bool.and_eq_true, Bool.not_eq_true'] at stores
      have kept : e.2.isStatement = true := by
        cases same : e.2 <;> simp_all [Instruction.isCopy, Instruction.isStatement]
      simp [slots e.2 (statement e member kept)] at stores
  · intro none i member
    obtain ⟨e, kept, rfl⟩ := List.mem_map.1 member
    obtain ⟨inside, kind⟩ := List.mem_filter.1 kept
    obtain ⟨label, -⟩ | ⟨c, at_e, fits⟩ :=
      Context.lift_entry lifted (FlowGraph.entry_mem graph block inside)
    · cases same : e.2 <;> simp_all [Instruction.isStatement, Instruction.anchor?]
    · have other : c.isStore = false := by
        cases c with
        | store storage => exact absurd at_e (none e inside storage)
        | _ => rfl
      have stores := fits.stores
      rw [other, copies _ member] at stores
      simpa using stores

/-- What is folded into the tests of interpreted code writes slots only, and so is not seen at
    any test, exactly if no block folded in holds a store. -/
theorem folds_unobserved_iff_no_store
    (reached : (Setting.of scripts declarations config).Reached s)
    (given : ((Setting.of scripts declarations config).interpret script s).1 = .ok f)
    (found : scripts.get? script = some code) (graph : FlowGraph.ofFunction f = .ok g) :
    ((∀ v ∈ (Layout.of g).visits, ∀ fold ∈ (Layout.of g).folds v, ∀ i ∈ fold.statements,
        i.onlySlots = true) ∧
      ∀ v ∈ (Layout.of g).visits, (Layout.of g).Unobserved v) ↔
    ∀ v ∈ (Layout.of g).visits, ∀ fold ∈ (Layout.of g).folds v, ∀ b,
      g.block? fold.block = some b → ∀ e ∈ b.entries, ∀ storage,
        (Table.ofFormat config.format).commandAt? code e.1 ≠ some (.store storage) := by
  have lifts := lifts_of_interpret reached given
  have wf := FlowGraph.wellFormed_of_ofFunction graph
  constructor
  · rintro ⟨slots, -⟩ v visited fold among b block
    obtain ⟨b', block', statements, copies⟩ := Layout.mem_folds (l := Layout.of g) wf among
    obtain rfl : b = b' := Option.some.inj (block.symm.trans block')
    rw [← statements] at copies
    refine (slots_iff_no_store lifts found graph block copies).1 ?_
    rw [statements]
    exact slots v visited fold among
  · intro none
    have slots : ∀ v ∈ (Layout.of g).visits, ∀ fold ∈ (Layout.of g).folds v,
        ∀ i ∈ fold.statements, i.onlySlots = true := by
      intro v visited fold among
      obtain ⟨b, block, statements, copies⟩ := Layout.mem_folds (l := Layout.of g) wf among
      rw [← statements] at copies ⊢
      refine (slots_iff_no_store lifts found graph block copies).2 ?_
      exact none v visited fold among b block
    refine ⟨slots, fun v visited => ?_⟩
    obtain ⟨n, block⟩ := Layout.block_of_mem_visitsFrom visited
    exact Layout.unobserved_of_slots wf block (slots v visited)

end Setting

namespace Sample

open FlowGraph

def setting (code : Script) : Setting := .of (.insert .empty 0 code) .none .default

def slot (n : Nat) : Expr := .var (.stack 0 n .int) (.ofVariable (.stack 0 n .int))

def pushes (n value : Nat) : Instruction :=
  .assign [slot n] (.const (.int (.ofNat value)) (.ofValue 0 n))

def equals (m n : Nat) : Expr := .op .branchEquals [slot m, slot n] [] [] false

def either : Script :=
  .ofLines [.pushInt 1, .pushInt 2, .jump .branchEquals 7, .pushInt 3, .pushInt 4,
    .jump .branchEquals 7, .op .ret (.int 0), .op .ret (.int 0)]

def eitherLifted : Function :=
  ⟨0, [], Lift.anchored [pushes 0 1, pushes 1 2, .branch (equals 0 1) 7, pushes 2 3, pushes 3 4,
    .branch (equals 2 3) 7, .ret [], .ret []], []⟩

def eitherGraph : FlowGraph :=
  ⟨0, #[⟨0, [(0, pushes 0 1), (1, pushes 1 2), (2, .branch (equals 0 1) 7)],
      .tests (equals 0 1) 3 1⟩,
    ⟨1, [(3, pushes 2 3), (4, pushes 3 4), (5, .branch (equals 2 3) 7)], .tests (equals 2 3) 3 2⟩,
    ⟨2, [(6, .ret [])], .returns⟩, ⟨3, [(8, .label 7), (7, .ret [])], .returns⟩]⟩

theorem either_interpreted : ((setting either).interpret 0 .start).1 = .ok eitherLifted :=
  Setting.interpret_eq (by decide +kernel)

theorem either_unobserved :
    ((Layout.of eitherGraph).visits.any fun v => !((Layout.of eitherGraph).folds v).isEmpty) ∧
    (∀ v ∈ (Layout.of eitherGraph).visits, ∀ fold ∈ (Layout.of eitherGraph).folds v,
      ∀ i ∈ fold.statements, i.onlySlots = true) ∧
    ∀ v ∈ (Layout.of eitherGraph).visits, (Layout.of eitherGraph).Unobserved v := by
  refine ⟨by cbv,
    (Setting.folds_unobserved_iff_no_store .start either_interpreted rfl (by cbv)).2 ?_⟩
  have none : either.opcodes.all (fun opcode =>
      !((Table.ofFormat .current).lookup? opcode).any Command.isStore) = true := by cbv
  intro v _ fold _ b _ e _ storage store
  obtain ⟨opcode, at_e, found⟩ := Option.bind_eq_some_iff.1 store
  have other := List.all_eq_true.1 none opcode (List.mem_of_getElem? at_e)
  change ((Table.ofFormat .current).lookup? opcode) = _ at found
  simp [found, Command.isStore] at other

/-- Two branches with one target and a store between them. -/
def storing : Script :=
  .ofLines [.pushInt 1, .pushInt 2, .jump .branchEquals 9, .pushInt 5, .op .setVar (.int 3),
    .pushInt 3, .pushInt 4, .jump .branchEquals 9, .op .ret (.int 0), .op .ret (.int 0)]

def stores : Instruction := .assign [.var (.varp 3) (.ofVariable (.varp 3))] (slot 2)

def storingLifted : Function :=
  ⟨0, [], Lift.anchored [pushes 0 1, pushes 1 2, .branch (equals 0 1) 9, pushes 2 5, stores,
    pushes 3 3, pushes 4 4, .branch (equals 3 4) 9, .ret [], .ret []], []⟩

def storingGraph : FlowGraph :=
  ⟨0, #[⟨0, [(0, pushes 0 1), (1, pushes 1 2), (2, .branch (equals 0 1) 9)],
      .tests (equals 0 1) 3 1⟩,
    ⟨1, [(3, pushes 2 5), (4, stores), (5, pushes 3 3), (6, pushes 4 4),
      (7, .branch (equals 3 4) 9)], .tests (equals 3 4) 3 2⟩,
    ⟨2, [(8, .ret [])], .returns⟩, ⟨3, [(10, .label 9), (9, .ret [])], .returns⟩]⟩

def storingTree : Tree :=
  [.seq [pushes 0 1, pushes 1 2, pushes 2 5, stores, pushes 3 3, pushes 4 4],
    .choice [(⟨[], Layout.joinTests .shortOr (equals 0 1) (equals 3 4), true⟩, [.seq [.ret []]])]
      none,
    .seq [.ret []]]

/-- The block folded in stores, and if the first comparison holds the tree stores where the code
    does not. -/
theorem storing_observed :
    ((setting storing).interpret 0 .start).1 = .ok storingLifted ∧
      ofFunction storingLifted = .ok storingGraph ∧ storingLifted.tree = .ok storingTree ∧
      (∃ v ∈ (Layout.of storingGraph).visits, ∃ fold ∈ (Layout.of storingGraph).folds v,
        ∃ i ∈ fold.statements, i.onlySlots = false) ∧
      ∃ o es fs, (Machine.ofCode storingLifted.code.instructions).run o 4 0
          storingLifted.code.instructions = (es, none) ∧
        Machine.ofTree.run o 8 0 (Tree.load storingTree) = (fs, none) ∧
        stores ∈ executed fs ∧ stores ∉ executed es := by
  have folded : (Layout.of storingGraph).visits.any (fun v => ((Layout.of storingGraph).folds v).any
      fun fold => fold.statements.any fun i => !i.onlySlots) = true := by cbv
  simp only [List.any_eq_true, Bool.not_eq_true'] at folded
  refine ⟨Setting.interpret_eq (by decide +kernel), rfl, by cbv, folded, ?_⟩
  let o : Oracle := ⟨fun _ => true, fun _ => 0⟩
  refine ⟨o, [.executes (pushes 0 1), .executes (pushes 1 2), .tests (equals 0 1),
    .executes (.ret [])], [pushes 0 1, pushes 1 2, pushes 2 5, stores, pushes 3 3,
      pushes 4 4].map .executes ++ [.tests (equals 0 1), .executes (.ret [])], by cbv, by cbv, ?_⟩
  simp [executed, Event.statement?, stores, pushes, slot]

end Sample

end ClientScript
