import ClientScript.Proofs.Flow.Blocks

/-!
Code without a block graph. Main statement: a function is refused if an instruction jumps to a label
that is not in the code, or if its last instruction decides something, and in no other case.
-/
namespace ClientScript

namespace Instruction

theorem targets_of_not_isTerminal {i : Instruction} (plain : i.isTerminal = false) :
    i.targets = [] := by
  cases i <;> simp_all [isTerminal, targets]

theorem fallsThrough_of_not_isTerminal {i : Instruction} (plain : i.isTerminal = false) :
    i.fallsThrough = true := by
  by_contra stops
  simp [isTerminal_of_not_fallsThrough (by simpa using stops)] at plain

end Instruction

namespace Block

theorem ne_nil_of_mem_split (es : List (Nat × Instruction)) :
    ∀ run, run ≠ [] → ∀ r ∈ split run es, r ≠ [] := by
  induction es with
  | nil =>
    intro run nonempty r member
    rw [split, List.mem_singleton] at member
    exact member ▸ nonempty
  | cons e es ih =>
    intro run nonempty r member
    simp only [split] at member
    split at member
    · rcases List.mem_cons.1 member with rfl | later
      · exact nonempty
      · exact ih [e] (by simp) r later
    · exact ih (run ++ [e]) (by simp) r member

theorem getLast?_split (es : List (Nat × Instruction)) :
    (split [] es).getLast?.map List.getLast? = some es.getLast? := by
  cases es with
  | nil => rfl
  | cons e es =>
    have opened : split [] (e :: es) = split [e] es := rfl
    have whole := flatten_split es [e]
    have nonempty := ne_nil_of_mem_split es [e] (by simp)
    rw [opened]
    rcases List.eq_nil_or_concat (split [e] es) with none | ⟨runs, last, runs_eq⟩
    · exact absurd none (split_ne_nil es [e])
    · rw [List.concat_eq_append] at runs_eq
      rw [runs_eq, List.flatten_append, List.flatten_singleton] at whole
      have some_last : last ≠ [] := nonempty last (by simp [runs_eq])
      rw [runs_eq, List.getLast?_concat, Option.map_some]
      change some last.getLast? = some ([e] ++ es).getLast?
      rw [← whole, List.getLast?_append_of_ne_nil _ some_last]

end Block

namespace FlowGraph

variable {script : Int32} {blockOf : Label → Option Nat}

theorem bind_error {α β : Type} {x : Except Failure α} {k : α → Except Failure β} :
    (∃ e, x >>= k = .error e) ↔
      (∃ e, x = .error e) ∨ ∃ a, x = .ok a ∧ ∃ e, k a = .error e := by
  cases x <;> simp [bind, Except.bind]

theorem resolve_error {l : Label} :
    (∃ e, resolve script blockOf l = .error e) ↔ blockOf l = none := by
  unfold resolve
  cases blockOf l <;> simp

theorem resolveCases_error {cases : List (Int32 × Label)} :
    (∃ e, resolveCases script blockOf cases = .error e) ↔ ∃ l ∈ cases.map Prod.snd,
      blockOf l = none := by
  induction cases with
  | nil => simp [resolveCases]
  | cons c cases ih =>
    obtain ⟨value, l⟩ := c
    rw [List.map_cons, List.exists_mem_cons_iff, ← ih, ← @resolve_error script blockOf l,
      resolveCases, bind_error]
    refine or_congr_right' fun resolved => ?_
    cases first : resolve script blockOf l with
    | error e => exact absurd ⟨e, first⟩ resolved
    | ok n => simp [bind_error, pure, Except.pure]

/-- A run has no exit if its last instruction jumps nowhere, or could go on and there is nothing
    behind. -/
theorem exitOf_error {next : Option Nat} {last : Option Instruction} :
    (∃ e, exitOf script blockOf next last = .error e) ↔ ∃ i, last = some i ∧
      ((∃ l ∈ i.targets, blockOf l = none) ∨ i.isDecision ∧ next = none) := by
  cases last with
  | none => simp [exitOf]
  | some i =>
    simp only [Option.some.injEq, exists_eq_left']
    cases i with
    | assign | ret | label => simp [exitOf, Instruction.targets, Instruction.isDecision]
    | goto l =>
      have target := @resolve_error script blockOf l
      simp only [exitOf, bind_error, target, Instruction.targets, List.mem_singleton,
        exists_eq_left, Instruction.isDecision]
      simp [pure, Except.pure]
    | branch c l =>
      have target := @resolve_error script blockOf l
      simp only [exitOf, bind_error, target, Instruction.targets, List.mem_singleton,
        exists_eq_left, Instruction.isDecision]
      refine or_congr_right' fun resolved => ?_
      cases first : resolve script blockOf l with
      | error e => exact absurd (target.1 ⟨e, first⟩) resolved
      | ok n => cases next <;> simp [pure, Except.pure]
    | switch e cases =>
      have each := @resolveCases_error script blockOf cases.entries
      simp only [exitOf, bind_error, each, Instruction.targets, IntMap.values,
        Instruction.isDecision]
      refine or_congr_right' fun resolved => ?_
      cases first : resolveCases script blockOf cases.entries with
      | error e => exact absurd (each.1 ⟨e, first⟩) resolved
      | ok targets => cases next <;> simp [pure, Except.pure]

theorem blocksFrom_error {count : Nat} {runs : List (List (Nat × Instruction))} {index : Nat} :
    (∃ e, blocksFrom script blockOf count index runs = .error e) ↔ ∃ k run, runs[k]? = some run ∧
      ∃ e, exitOf script blockOf (following count (index + k)) (run.getLast?.map (·.2)) =
        .error e := by
  induction runs generalizing index with
  | nil => simp [blocksFrom]
  | cons run runs ih =>
    rw [← Nat.or_exists_add_one, blocksFrom]
    change (∃ e, (exitOf script blockOf (following count index) (run.getLast?.map (·.2)) >>=
      fun exit => blocksFrom script blockOf count (index + 1) runs >>=
        fun later => pure (⟨index, run, exit⟩ :: later)) = .error e) ↔ _
    have here : (∃ run', (run :: runs)[0]? = some run' ∧ ∃ e,
        exitOf script blockOf (following count (index + 0)) (run'.getLast?.map (·.2)) =
          .error e) ↔
        ∃ e, exitOf script blockOf (following count index) (run.getLast?.map (·.2)) =
          .error e := by simp
    rw [bind_error, here]
    refine or_congr_right' fun leaves => ?_
    cases first : exitOf script blockOf (following count index) (run.getLast?.map (·.2)) with
    | error e => exact absurd ⟨e, first⟩ leaves
    | ok exit =>
      simp only [Except.ok.injEq, exists_eq_left', bind_error, ih, List.getElem?_cons_succ]
      simp [pure, Except.pure, Nat.add_assoc, Nat.add_comm 1]

theorem blockOfLabel_eq_none {runs : List (List (Nat × Instruction))} {l : Label} :
    blockOfLabel runs l = none ↔ .label l ∉ runs.flatten.map (·.2) := by
  have named (i : Instruction) : i.anchor? = some l ↔ i = .label l := by
    cases i <;> simp [Instruction.anchor?]
  rw [blockOfLabel, List.find?_eq_none]
  constructor
  · intro absent among
    obtain ⟨e, member, same⟩ := List.mem_map.1 among
    obtain ⟨run, inside, holds⟩ := List.mem_flatten.1 member
    obtain ⟨k, at_k⟩ := List.mem_iff_getElem?.1 inside
    have short := (List.getElem?_eq_some_iff.1 at_k).1
    refine absent k (by simpa using short) ?_
    rw [at_k, Option.getD_some, List.any_eq_true]
    exact ⟨e, holds, by simpa using (named e.2).2 same⟩
  · intro absent k _ holds
    cases at_k : runs[k]? with
    | none => simp [at_k] at holds
    | some run =>
      rw [at_k, Option.getD_some, List.any_eq_true] at holds
      obtain ⟨e, member, same⟩ := holds
      refine absent (List.mem_map.2 ⟨e, List.mem_flatten.2 ⟨run, List.mem_of_getElem? at_k,
        member⟩, (named e.2).1 (by simpa using same)⟩)

theorem exists_target {runs : List (List (Nat × Instruction))}
    (shaped : ∀ run ∈ runs, Block.Shaped run) {P : Label → Prop} :
    (∃ i ∈ runs.flatten.map (·.2), ∃ l ∈ i.targets, P l) ↔
      ∃ (k : Nat) (run : List (Nat × Instruction)) (i : Instruction), runs[k]? = some run ∧
        run.getLast?.map (·.2) = some i ∧ ∃ l ∈ i.targets, P l := by
  constructor
  · rintro ⟨i, among, l, target, holds⟩
    obtain ⟨e, member, rfl⟩ := List.mem_map.1 among
    obtain ⟨run, inside, at_run⟩ := List.mem_flatten.1 member
    obtain ⟨k, at_k⟩ := List.mem_iff_getElem?.1 inside
    rcases List.eq_nil_or_concat run with rfl | ⟨init, last, rfl⟩
    · simp at at_run
    · rw [List.concat_eq_append] at at_k at_run inside
      rcases List.mem_append.1 at_run with early | final
      · have quiet := (shaped _ inside).terminalLast e (by rwa [List.dropLast_concat])
        simp [Instruction.targets_of_not_isTerminal quiet] at target
      · obtain rfl := List.mem_singleton.1 final
        exact ⟨k, _, e.2, at_k, by rw [List.getLast?_concat]; rfl, l, target, holds⟩
  · rintro ⟨k, run, i, at_k, last, l, target, holds⟩
    obtain ⟨e, ends, rfl⟩ := Option.map_eq_some_iff.1 last
    exact ⟨e.2, List.mem_map_of_mem (List.mem_flatten.2 ⟨run, List.mem_of_getElem? at_k,
      List.mem_of_getLast? ends⟩), l, target, holds⟩

/-- A function has no block graph if some jump finds no label, or if its last instruction decides
    something. -/
theorem ofFunction_error {f : Function} : (∃ e, ofFunction f = .error e) ↔
    (∃ i ∈ f.code.instructions, ∃ l ∈ i.targets, .label l ∉ f.code.instructions) ∨
      ∃ i, f.code.instructions.getLast? = some i ∧ i.isDecision := by
  have shaped := Block.shaped_of_mem_split f.code.toList [] Block.shaped_nil
  have whole : (Block.split [] f.code.toList).flatten.map (·.2) = f.code.instructions := by
    rw [Block.flatten_split]
    rfl
  have ends : (Block.split [] f.code.toList).getLast?.map (fun run => run.getLast?.map (·.2)) =
      some f.code.instructions.getLast? := by
    have last := congrArg (Option.map (Option.map Prod.snd)) (Block.getLast?_split f.code.toList)
    rw [Option.map_map, Option.map_some] at last
    rw [Chain.instructions, List.getLast?_map]
    exact last
  have built : (∃ e, ofFunction f = .error e) ↔ ∃ e, blocksFrom f.script
      (blockOfLabel (Block.split [] f.code.toList)) (Block.split [] f.code.toList).length 0
        (Block.split [] f.code.toList) = .error e := by
    rw [ofFunction, bind_error]
    simp [pure, Except.pure]
  generalize Block.split [] f.code.toList = runs at *
  have jumps := exists_target shaped (P := fun l => blockOfLabel runs l = none)
  simp only [blockOfLabel_eq_none, whole] at jumps
  rw [built, blocksFrom_error, jumps]
  simp only [exitOf_error, blockOfLabel_eq_none, whole, Nat.zero_add]
  rw [List.getLast?_eq_getElem?] at ends
  constructor
  · rintro ⟨k, run, at_k, i, last, missing | ⟨decides, final⟩⟩
    · exact .inl ⟨k, run, i, at_k, last, missing⟩
    · have short := (List.getElem?_eq_some_iff.1 at_k).1
      have at_end : k = runs.length - 1 := by
        unfold following at final
        split at final
        · simp at final
        · omega
      rw [← at_end, at_k, Option.map_some, last, Option.some.injEq] at ends
      exact .inr ⟨i, ends.symm, decides⟩
  · rintro (⟨k, run, i, at_k, last, missing⟩ | ⟨i, last, decides⟩)
    · exact ⟨k, run, at_k, i, last, .inl missing⟩
    · obtain ⟨run, at_end, same⟩ := Option.map_eq_some_iff.1 ends
      refine ⟨_, run, at_end, i, same.trans last, .inr ⟨decides, ?_⟩⟩
      exact if_neg (by omega)

end FlowGraph

end ClientScript
