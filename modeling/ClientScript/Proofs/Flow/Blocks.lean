import ClientScript.Flow.Graph
import Mathlib.Data.List.Basic

/-!
What blocks look like. Cutting code into runs loses nothing; in a run labels come first and a
terminal instruction only last; how control leaves a block is read off its last instruction, and
it leads to blocks of the graph.
-/
namespace ClientScript

def Instruction.isReturn : Instruction → Bool
  | .ret _ => true
  | _ => false

theorem Instruction.isReturn_eq_false {i : Instruction} (plain : i.isTerminal = false) :
    i.isReturn = false := by
  cases i <;> simp_all [isTerminal, isReturn]

theorem Instruction.isReturn_of_isCopy {i : Instruction} (copies : i.isCopy = true) :
    i.isReturn = false := by
  cases i <;> simp_all [isCopy, isReturn]

namespace Block

/-- Labels first, and nothing terminal before the end. -/
structure Shaped (run : List (Nat × Instruction)) : Prop where
  labelsFirst : ∃ ls xs, run = ls ++ xs ∧ (∀ e ∈ ls, e.2.anchor?.isSome) ∧
    ∀ e ∈ xs, e.2.anchor? = none
  terminalLast : ∀ e ∈ run.dropLast, e.2.isTerminal = false

theorem shaped_nil : Shaped [] := ⟨⟨[], [], by simp⟩, by simp⟩

theorem shaped_one (e : Nat × Instruction) : Shaped [e] := by
  refine ⟨?_, by simp⟩
  cases h : e.2.anchor? with
  | none => exact ⟨[], [e], by simp [h]⟩
  | some l => exact ⟨[e], [], by simp [h]⟩

theorem shaped_snoc {run : List (Nat × Instruction)} {e : Nat × Instruction} (h : Shaped run)
    (stays : opens run e.2 = false) : Shaped (run ++ [e]) := by
  obtain ⟨⟨ls, xs, rfl, labels, code⟩, terminal⟩ := h
  constructor
  · cases anchor : e.2.anchor? with
    | none =>
      refine ⟨ls, xs ++ [e], by simp, labels, ?_⟩
      intro e' member
      rcases List.mem_append.1 member with old | new
      · exact code e' old
      · rw [List.mem_singleton.1 new, anchor]
    | some l =>
      -- A label stays only behind labels, so there is no code yet.
      have empty : xs = [] := by
        rcases List.eq_nil_or_concat xs with rfl | ⟨init, last, rfl⟩
        · rfl
        · have none := code last (by simp)
          simp [opens, anchor, none] at stays
      subst empty
      refine ⟨ls ++ [e], [], by simp, ?_, by simp⟩
      intro e' member
      rcases List.mem_append.1 member with old | new
      · exact labels e' old
      · rw [List.mem_singleton.1 new, anchor]; rfl
  · intro e' member
    rw [List.dropLast_concat] at member
    generalize ls ++ xs = run at *
    rcases List.eq_nil_or_concat run with rfl | ⟨init, last, rfl⟩
    · simp at member
    · simp only [List.concat_eq_append, List.dropLast_concat, List.mem_append,
        List.mem_singleton] at terminal member
      rcases member with old | rfl
      · exact terminal e' old
      · simp [opens] at stays
        exact stays.1

theorem shaped_of_mem_split (es : List (Nat × Instruction)) :
    ∀ run, Shaped run → ∀ r ∈ split run es, Shaped r := by
  induction es with
  | nil =>
    intro run h r member
    rw [split, List.mem_singleton] at member
    exact member ▸ h
  | cons e es ih =>
    intro run h r member
    simp only [split] at member
    split at member
    · rcases List.mem_cons.1 member with rfl | later
      · exact h
      · exact ih [e] (shaped_one e) r later
    · rename_i stays
      exact ih (run ++ [e]) (shaped_snoc h (by simpa using stays)) r member

theorem split_ne_nil (es : List (Nat × Instruction)) : ∀ run, split run es ≠ [] := by
  induction es with
  | nil => intro run; simp [split]
  | cons e es ih =>
    intro run
    simp only [split]
    split
    · simp
    · exact ih _

theorem code_ends_of_mem_dropLast (es : List (Nat × Instruction)) :
    ∀ run, ∀ r ∈ (split run es).dropLast, ∃ e, r.getLast? = some e ∧ e.2.anchor? = none := by
  induction es with
  | nil => intro run r member; simp [split] at member
  | cons e es ih =>
    intro run r member
    simp only [split] at member
    split at member
    · rename_i opened
      rw [List.dropLast_cons_of_ne_nil (split_ne_nil es [e])] at member
      rcases List.mem_cons.1 member with rfl | later
      · unfold opens at opened
        split at opened
        · simp at opened
        · rename_i pc last found
          refine ⟨_, found, ?_⟩
          cases last <;> simp_all [Instruction.isTerminal, Instruction.anchor?]
      · exact ih [e] r later
    · exact ih _ r member

end Block

namespace IntMap

variable {α : Type}

theorem mem_of_find {k : Int32} {a : α} {es : List (Int32 × α)} (found : find k es = some a) :
    (k, a) ∈ es := by
  induction es with
  | nil => simp [find] at found
  | cons e es ih =>
    obtain ⟨k', a'⟩ := e
    simp only [find] at found
    split at found
    · rename_i same
      rw [same, Option.some.inj found]
      exact List.mem_cons_self
    · exact List.mem_cons_of_mem _ (ih found)

theorem find_of_mem {k : Int32} {a : α} {es : List (Int32 × α)}
    (ascending : es.Pairwise fun a b => a.1 < b.1) (member : (k, a) ∈ es) :
    find k es = some a := by
  induction es with
  | nil => simp at member
  | cons e es ih =>
    obtain ⟨first, later⟩ := List.pairwise_cons.1 ascending
    rcases List.mem_cons.1 member with rfl | behind
    · simp [find]
    · have differ : k ≠ e.1 := (Int32.ne_of_lt (first _ behind)).symm
      obtain ⟨k', a'⟩ := e
      rw [find, if_neg differ]
      exact ih later behind

theorem mem_snd_iff {a : α} {es : List (Int32 × α)}
    (ascending : es.Pairwise fun a b => a.1 < b.1) :
    a ∈ es.map Prod.snd ↔ ∃ k, find k es = some a := by
  rw [List.mem_map]
  constructor
  · rintro ⟨⟨k, a⟩, member, rfl⟩
    exact ⟨k, find_of_mem ascending member⟩
  · rintro ⟨k, found⟩
    exact ⟨_, mem_of_find found, rfl⟩

end IntMap

namespace FlowGraph

/-- What the last instruction of a run says about the exit of its block. -/
inductive LeavesBy (blockOf : Label → Option Nat) (next : Option Nat) :
    Option Instruction → Exit → Prop where
  | returns (values : List Expr) : LeavesBy blockOf next (some (.ret values)) .returns
  | jumps {l : Label} {n : Nat} (found : blockOf l = some n) :
      LeavesBy blockOf next (some (.goto l)) (.jumps n)
  | tests {c : Expr} {l : Label} {n m : Nat} (found : blockOf l = some n) (rest : next = some m) :
      LeavesBy blockOf next (some (.branch c l)) (.tests c n m)
  | dispatches {e : Expr} {cases : IntMap Label} {targets : List (Int32 × Nat)} {m : Nat}
      (found : ∀ v, Option.Rel (fun l n => blockOf l = some n) (cases.get? v)
        (IntMap.find v targets))
      (ascending : targets.Pairwise fun a b => a.1 < b.1)
      (each : ∀ c ∈ targets, ∃ l, blockOf l = some c.2) (rest : next = some m) :
      LeavesBy blockOf next (some (.switch e cases)) (.dispatches e targets m)
  | falls {last : Option Instruction} (plain : ∀ i, last = some i → i.isTerminal = false) :
      LeavesBy blockOf next last (.falls next)

theorem resolve_ok {script : Int32} {blockOf : Label → Option Nat} {l : Label} {n : Nat}
    (h : resolve script blockOf l = .ok n) : blockOf l = some n := by
  unfold resolve at h
  split at h
  · simp_all
  · simp at h

theorem resolveCases_ok {script : Int32} {blockOf : Label → Option Nat}
    {cases : List (Int32 × Label)} {targets : List (Int32 × Nat)}
    (h : resolveCases script blockOf cases = .ok targets) :
    List.Forall₂ (fun c t => c.1 = t.1 ∧ blockOf c.2 = some t.2) cases targets := by
  induction cases generalizing targets with
  | nil =>
    simp only [resolveCases, Except.ok.injEq] at h
    exact h ▸ .nil
  | cons c cases ih =>
    obtain ⟨value, l⟩ := c
    simp only [resolveCases, bind, Except.bind, pure, Except.pure] at h
    split at h
    · simp at h
    · rename_i n resolved
      split at h
      · simp at h
      · rename_i rest others
        rw [← Except.ok.inj h]
        exact .cons ⟨rfl, resolve_ok resolved⟩ (ih others)

theorem find_rel {blockOf : Label → Option Nat} {cases : List (Int32 × Label)}
    {targets : List (Int32 × Nat)}
    (h : List.Forall₂ (fun c t => c.1 = t.1 ∧ blockOf c.2 = some t.2) cases targets) (v : Int32) :
    Option.Rel (fun l n => blockOf l = some n) (IntMap.find v cases) (IntMap.find v targets) := by
  induction h with
  | nil => exact .none
  | @cons c t cases targets same _ ih =>
    obtain ⟨k, l⟩ := c
    obtain ⟨k', n⟩ := t
    obtain ⟨rfl, found⟩ := same
    by_cases eq : v = k
    · simpa [IntMap.find, eq] using Option.Rel.some found
    · simpa [IntMap.find, eq] using ih

theorem targets_ascending {blockOf : Label → Option Nat} {cases : List (Int32 × Label)}
    {targets : List (Int32 × Nat)}
    (h : List.Forall₂ (fun c t => c.1 = t.1 ∧ blockOf c.2 = some t.2) cases targets)
    (ascending : cases.Pairwise fun a b => a.1 < b.1) :
    targets.Pairwise fun a b => a.1 < b.1 := by
  have keys : targets.map Prod.fst = cases.map Prod.fst := by
    induction h with
    | nil => rfl
    | cons same _ ih => simp [same.1, ih (List.pairwise_cons.1 ascending).2]
  have sorted : (cases.map Prod.fst).Pairwise (· < ·) := List.pairwise_map.2 ascending
  rw [← keys] at sorted
  exact List.pairwise_map.1 sorted

theorem targets_found {blockOf : Label → Option Nat} {cases : List (Int32 × Label)}
    {targets : List (Int32 × Nat)}
    (h : List.Forall₂ (fun c t => c.1 = t.1 ∧ blockOf c.2 = some t.2) cases targets) :
    ∀ c ∈ targets, ∃ l, blockOf l = some c.2 := by
  induction h with
  | nil => simp
  | cons same _ ih =>
    intro c member
    rcases List.mem_cons.1 member with rfl | later
    · exact ⟨_, same.2⟩
    · exact ih c later

theorem exitOf_ok {script : Int32} {blockOf : Label → Option Nat} {next : Option Nat}
    {last : Option Instruction} {exit : Exit} (h : exitOf script blockOf next last = .ok exit) :
    LeavesBy blockOf next last exit := by
  unfold exitOf at h
  split at h
  · rw [← Except.ok.inj h]
    exact .returns _
  · simp only [bind, Except.bind, pure, Except.pure] at h
    split at h
    · simp at h
    · rename_i n resolved
      rw [← Except.ok.inj h]
      exact .jumps (resolve_ok resolved)
  · simp only [bind, Except.bind, pure, Except.pure] at h
    split at h
    · simp at h
    · rename_i n resolved
      cases next with
      | none => simp at h
      | some m =>
        rw [← Except.ok.inj h]
        exact .tests (resolve_ok resolved) rfl
  · simp only [bind, Except.bind, pure, Except.pure] at h
    split at h
    · simp at h
    · rename_i e cases _ targets resolved
      cases next with
      | none => simp at h
      | some m =>
        have same := resolveCases_ok resolved
        rw [← Except.ok.inj h]
        exact .dispatches (find_rel same) (targets_ascending same cases.ascending)
          (targets_found same) rfl
  · rename_i other₁ other₂ other₃ other₄
    rw [← Except.ok.inj h]
    refine .falls fun i eq => ?_
    subst eq
    cases i <;> simp_all [Instruction.isTerminal]

def following (count n : Nat) : Option Nat := if n + 1 < count then some (n + 1) else none

/-- The blocks of a graph are numbered in order, have the shape of runs and leave as their last
    instructions say, and all but the last one end in code. -/
structure WellFormed (g : FlowGraph) : Prop where
  nonempty : 0 < g.size
  index : ∀ {n b}, g.block? n = some b → b.index = n
  shaped : ∀ {n b}, g.block? n = some b → Block.Shaped b.entries
  leaves : ∀ {n b}, g.block? n = some b →
    LeavesBy g.labelled? (following g.size n) (b.entries.getLast?.map (·.2)) b.exit
  codeEnds : ∀ {n b}, n + 1 < g.size → g.block? n = some b →
    ∃ e, b.entries.getLast? = some e ∧ e.2.anchor? = none

theorem blocksFrom_ok {script : Int32} {blockOf : Label → Option Nat} {count : Nat}
    {runs : List (List (Nat × Instruction))} {index : Nat} {bs : List Block}
    (h : blocksFrom script blockOf count index runs = .ok bs) :
    bs.map Block.entries = runs ∧ ∀ i b, bs[i]? = some b → b.index = index + i ∧
      LeavesBy blockOf (following count (index + i)) (b.entries.getLast?.map (·.2)) b.exit := by
  induction runs generalizing index bs with
  | nil =>
    rw [← Except.ok.inj h]
    simp
  | cons run runs ih =>
    simp only [blocksFrom, bind, Except.bind, pure, Except.pure] at h
    split at h
    · simp at h
    · rename_i exit left
      split at h
      · simp at h
      · rename_i later others
        rw [← Except.ok.inj h]
        obtain ⟨entries, each⟩ := ih others
        refine ⟨by simp [entries], ?_⟩
        intro i b found
        cases i with
        | zero =>
          rw [← Option.some.inj found]
          exact ⟨rfl, exitOf_ok left⟩
        | succ i =>
          have := each i b (by simpa using found)
          rwa [show index + 1 + i = index + (i + 1) by omega] at this

theorem ofFunction_ok {f : Function} {g : FlowGraph} (h : ofFunction f = .ok g) :
    g.script = f.script ∧ g.blocks.toList.map Block.entries = Block.split [] f.code.toList ∧
      ∀ i b, g.blocks.toList[i]? = some b → b.index = i ∧
        LeavesBy g.labelled? (following g.size i) (b.entries.getLast?.map (·.2)) b.exit := by
  simp only [ofFunction, bind, Except.bind, pure, Except.pure] at h
  split at h
  · simp at h
  · rename_i bs built
    rw [← Except.ok.inj h]
    obtain ⟨entries, each⟩ := blocksFrom_ok built
    refine ⟨rfl, by simpa using entries, ?_⟩
    intro i b found
    have facts := each i b (by simpa using found)
    have count : (Block.split [] f.code.toList).length = bs.length := by simp [← entries]
    have same : labelled? ⟨f.script, bs.toArray⟩ = blockOfLabel (Block.split [] f.code.toList) := by
      funext l
      simp [labelled?, entries]
    simpa [same, size, count] using facts

theorem wellFormed_of_ofFunction {f : Function} {g : FlowGraph} (h : ofFunction f = .ok g) :
    g.WellFormed := by
  obtain ⟨-, entries, each⟩ := ofFunction_ok h
  have at_list : ∀ {n b}, g.block? n = some b → g.blocks.toList[n]? = some b := by
    intro n b found
    simpa [block?] using found
  have among : ∀ {n b}, g.block? n = some b →
      (Block.split [] f.code.toList)[n]? = some b.entries := by
    intro n b found
    rw [← entries, List.getElem?_map, at_list found]
    rfl
  have count : (Block.split [] f.code.toList).length = g.size := by simp [← entries, size]
  refine ⟨?_, fun found => (each _ _ (at_list found)).1, ?_,
    fun found => (each _ _ (at_list found)).2, ?_⟩
  · rw [← count]
    exact List.length_pos_iff.2 (Block.split_ne_nil _ _)
  · intro n b found
    exact Block.shaped_of_mem_split _ _ Block.shaped_nil _ (List.mem_of_getElem? (among found))
  · intro n b early found
    have early' : (Block.split [] f.code.toList).dropLast[n]? = some b.entries := by
      rw [List.getElem?_dropLast, if_pos (by omega), among found]
    exact Block.code_ends_of_mem_dropLast _ [] _ (List.mem_of_getElem? early')

theorem flatten_entries {f : Function} {g : FlowGraph} (h : ofFunction f = .ok g) :
    (g.blocks.toList.map Block.entries).flatten = f.code.toList := by
  rw [(ofFunction_ok h).2.1, Block.flatten_split]
  rfl

theorem labelled_inside {g : FlowGraph} {l : Label} {n : Nat} (h : g.labelled? l = some n) :
    n < g.size := by
  have member := List.mem_of_find?_eq_some h
  simpa [size] using member

namespace WellFormed

variable {g : FlowGraph} (wf : g.WellFormed)

include wf

theorem successors_inside {n : Nat} {b : Block} (found : g.block? n = some b) {s : Nat}
    (member : s ∈ b.exit.successors) : s < g.size := by
  have next_inside : ∀ {m}, following g.size n = some m → m < g.size := by
    intro m h
    unfold following at h
    split at h
    · simp at h; omega
    · simp at h
  have left := wf.leaves found
  generalize b.exit = exit at *
  generalize b.entries.getLast?.map (·.2) = last at *
  cases left with
  | returns => simp [Exit.successors, Exit.edges] at member
  | jumps found =>
    simp [Exit.successors, Exit.edges] at member
    exact member ▸ labelled_inside found
  | tests found rest =>
    simp [Exit.successors, Exit.edges] at member
    rcases member with rfl | rfl
    · exact labelled_inside found
    · exact next_inside rest
  | dispatches _ _ each rest =>
    simp [Exit.successors, Exit.edges] at member
    rcases member with ⟨v, target⟩ | rfl
    · obtain ⟨l, found⟩ := each _ target
      exact labelled_inside found
    · exact next_inside rest
  | falls =>
    cases next : following g.size n with
    | none => simp [Exit.successors, Exit.edges, next] at member
    | some m =>
      simp [Exit.successors, Exit.edges, next] at member
      exact member ▸ next_inside next

theorem ascending {n : Nat} {b : Block} (found : g.block? n = some b) {e : Expr}
    {cases : List (Int32 × Nat)} {default : Nat} (exit : b.exit = .dispatches e cases default) :
    cases.Pairwise fun a b => a.1 < b.1 := by
  have left := wf.leaves found
  rw [exit] at left
  generalize b.entries.getLast?.map (·.2) = last at left
  cases left with
  | dispatches _ ascending => exact ascending

theorem no_return_before {n : Nat} {b : Block} (found : g.block? n = some b)
    {e : Nat × Instruction} (early : e ∈ b.entries.dropLast) : e.2.isReturn = false :=
  Instruction.isReturn_eq_false ((wf.shaped found).terminalLast e early)

theorem no_return {n : Nat} {b : Block} (found : g.block? n = some b) (other : b.exit ≠ .returns) :
    ∀ i ∈ b.statements, i.isReturn = false := by
  intro i member
  obtain ⟨⟨pc, i'⟩, among, rfl⟩ := List.mem_map.1 member
  have inside : (pc, i') ∈ b.entries := List.mem_of_mem_filter among
  rcases List.eq_nil_or_concat b.entries with none | ⟨init, final, concat⟩
  · simp [none] at inside
  · rw [List.concat_eq_append] at concat
    rw [concat] at inside
    rcases List.mem_append.1 inside with early | final_one
    · exact wf.no_return_before found (by simpa [concat] using early)
    · have left := wf.leaves found
      rw [concat, List.getLast?_concat, ← List.mem_singleton.1 final_one, Option.map_some] at left
      cases ret : i'.isReturn with
      | false => rfl
      | true =>
        generalize b.exit = exit at *
        cases left with
        | returns => exact absurd rfl other
        | jumps | tests | dispatches => simp [Instruction.isReturn] at ret
        | falls plain => simpa [ret] using Instruction.isReturn_eq_false (plain i' rfl)

theorem returns_last {n : Nat} {b : Block} (found : g.block? n = some b)
    (returns : b.exit = .returns) : ∃ init values, b.statements = init ++ [.ret values] ∧
      ∀ i ∈ init, i.isReturn = false := by
  have left := wf.leaves found
  rcases List.eq_nil_or_concat b.entries with none | ⟨init, final, concat⟩
  · rw [none, returns] at left
    simp only [List.getLast?_nil, Option.map_none] at left
    cases left
  · rw [List.concat_eq_append] at concat
    rw [concat, List.getLast?_concat, Option.map_some, returns] at left
    obtain ⟨pc, i⟩ := final
    cases left with
    | returns values =>
      refine ⟨(init.filter fun e => e.2.isStatement).map (·.2), values, ?_, ?_⟩
      · rw [Block.statements, Block.body, concat, List.filter_append, List.map_append]
        rfl
      · intro i member
        obtain ⟨e, among, rfl⟩ := List.mem_map.1 member
        refine wf.no_return_before found ?_
        rw [concat, List.dropLast_concat]
        exact List.mem_of_mem_filter among

end WellFormed

end FlowGraph

end ClientScript
