import ClientScript.Proofs.Lift.Copies
import ClientScript.Proofs.Lift.Motion

/-!
Where lifted instructions jump to. An instruction has the targets that the offsets of its script
come to, counted from the position behind it, and all of them are positions of the script.
-/
namespace ClientScript

namespace IntMap

variable {α : Type}

theorem place_last {k : Int32} {a : α} {es : List (Int32 × α)} (last : ∀ e ∈ es, e.1 < k) :
    place k a es = es ++ [(k, a)] := by
  induction es with
  | nil => rfl
  | cons e es ih =>
    have before : e.1 < k := last e (by simp)
    have later : ¬ k < e.1 := Int32.not_lt.2 (Int32.le_of_lt before)
    have other : k ≠ e.1 := (Int32.ne_of_lt before).symm
    rw [place, if_neg later, if_neg other, ih fun e' member => last e' (by simp [member]),
      List.cons_append]

theorem entries_foldl_insert {pairs : List (Int32 × α)} {m : IntMap α}
    (ascending : (m.entries ++ pairs).Pairwise fun a b => a.1 < b.1) :
    (pairs.foldl (fun m p => m.insert p.1 p.2) m).entries = m.entries ++ pairs := by
  induction pairs generalizing m with
  | nil => simp
  | cons p pairs ih =>
    have last : ∀ e ∈ m.entries, e.1 < p.1 := fun e member =>
      (List.pairwise_append.1 ascending).2.2 e member p (by simp)
    have one : (m.insert p.1 p.2).entries = m.entries ++ [p] := place_last last
    rw [List.append_cons] at ascending ⊢
    rw [List.foldl_cons, ih (one ▸ ascending), one]

theorem entries_ofList {pairs : List (Int32 × α)}
    (ascending : pairs.Pairwise fun a b => a.1 < b.1) : (ofList pairs).entries = pairs :=
  entries_foldl_insert ascending

end IntMap

/-- Where a command at a position may jump to: by the offset that is its operand, or by those of the
    jump table that the operand numbers. -/
def Script.jumps (code : Script) (pc : Nat) (c : Command) : List Int :=
  match c, code.operands[pc]? with
  | .goto, some (.int offset) | .branchCompare, some (.int offset) => [Script.target pc offset]
  | .switch, some (.int index) =>
    (code.switches[index.toInt.toNat]?.elim [] IntMap.values).map (Script.target pc)
  | _, _ => []

theorem Script.jumps_of_not_isJump {code : Script} {pc : Nat} {c : Command}
    (straight : c.isJump = false) : code.jumps pc c = [] := by
  unfold jumps
  split
  · simp [Command.isJump] at straight
  · simp [Command.isJump, Command.isDecision] at straight
  · simp [Command.isJump, Command.isDecision] at straight
  · rfl

namespace Lift

variable {ctx : Context} {f f' : Frame}

theorem pc_pop {type : StackType} {s : Slot} (h : Comes (pop ctx type) f s f') : f'.pc = f.pc := by
  have next := comes_get_bind.1 h
  split at next
  · exact absurd next not_comes_imbalance
  · obtain ⟨_, f₂, put, rest⟩ := comes_bind.1 next
    obtain rfl := comes_set.1 put
    split at rest
    · obtain ⟨-, rfl⟩ := comes_pure.1 rest
      rfl
    · exact absurd rest not_comes_imbalance

theorem comes_operand {v : Value} (h : Comes (operand ctx) f v f') :
    ctx.code.operands[f.pc]? = some v := by
  have next := comes_get_bind.1 h
  split at next
  · rename_i found
    rw [found, (comes_pure.1 next).1]
  · exact absurd next not_comes_defect

theorem comes_intOperand {n : Int32} (h : Comes (intOperand ctx) f n f') :
    ctx.code.operands[f.pc]? = some (.int n) := by
  obtain ⟨v, f₁, one, next⟩ := comes_bind.1 h
  have found := comes_operand one
  split at next
  · rw [found, (comes_pure.1 next).1]
  · exact absurd next not_comes_defect

theorem comes_operand_iff {v : Value} :
    Comes (operand ctx) f v f' ↔ ctx.code.operands[f.pc]? = some v ∧ f' = f := by
  constructor
  · exact fun h => ⟨comes_operand h, stays_operand h⟩
  · rintro ⟨found, rfl⟩
    refine comes_get_bind.2 ?_
    rw [found]
    exact comes_pure.2 ⟨rfl, rfl⟩

theorem comes_intOperand_iff {n : Int32} :
    Comes (intOperand ctx) f n f' ↔ ctx.code.operands[f.pc]? = some (.int n) ∧ f' = f := by
  constructor
  · exact fun h => ⟨comes_intOperand h, stays_intOperand h⟩
  · rintro ⟨found, rfl⟩
    exact comes_bind.2 ⟨.int n, f', comes_operand_iff.2 ⟨found, rfl⟩, comes_pure.2 ⟨rfl, rfl⟩⟩

theorem comes_jump {offset : Int32} {l : Label} (h : Comes (jump ctx offset) f l f') :
    (l : Int) = Script.target f.pc offset ∧ l < ctx.code.length := by
  have next := comes_get_bind.1 h
  simp only at next
  split at next
  · rename_i inside
    obtain ⟨rfl, -⟩ := comes_pure.1 next
    exact ⟨Int.toNat_of_nonneg inside.1, (Int.toNat_lt inside.1).2 inside.2⟩
  · exact absurd next not_comes_defect

theorem comes_switchTable {t : IntMap Int32} (h : Comes (switchTable ctx) f t f') :
    ∃ index, ctx.code.operands[f.pc]? = some (.int index) ∧
      ctx.code.switches[index.toInt.toNat]? = some t := by
  obtain ⟨index, f₁, one, next⟩ := comes_bind.1 h
  simp only at next
  split at next
  · rename_i t' found
    obtain ⟨rfl, -⟩ := comes_pure.1 next
    exact ⟨index, comes_intOperand one, (Option.ite_none_right_eq_some.1 found).2⟩
  · exact absurd next not_comes_defect

theorem comes_caseLabels {entries : List (Int32 × Int32)} {cases : List (Int32 × Label)}
    (h : Comes (caseLabels ctx entries) f cases f') :
    cases.map Prod.fst = entries.map Prod.fst ∧
    cases.map (fun c => (c.2 : Int)) = entries.map (fun e => Script.target f.pc e.2) ∧
    ∀ c ∈ cases, c.2 < ctx.code.length := by
  induction entries generalizing f f' cases with
  | nil =>
    obtain ⟨rfl, -⟩ := comes_pure.1 h
    simp
  | cons entry rest ih =>
    obtain ⟨l, f₁, one, next⟩ := comes_bind.1 h
    obtain ⟨target, inside⟩ := comes_jump one
    obtain rfl := stays_jump one
    obtain ⟨later, f₂, two, last⟩ := comes_bind.1 next
    obtain ⟨values, targets, insides⟩ := ih two
    obtain ⟨rfl, -⟩ := comes_pure.1 last
    refine ⟨by rw [List.map_cons, List.map_cons, values],
      by rw [List.map_cons, List.map_cons, targets, target], ?_⟩
    simpa [inside] using fun a b member => insides (a, b) member

structure Jumps (ctx : Context) (pc : Nat) (c : Command) (i : Instruction) : Prop where
  offsets : i.targets.map Int.ofNat = ctx.code.jumps pc c
  inside : ∀ l ∈ i.targets, l < ctx.code.length

variable {i : Instruction} {opcode : Opcode} {c : Command}

theorem jumps_switch (h : Comes (switch ctx) f i f') : Jumps ctx f.pc .switch i := by
  obtain ⟨s, f₁, popped, h₁⟩ := comes_bind.1 h
  obtain ⟨table, f₂, numbered, h₂⟩ := comes_bind.1 h₁
  obtain ⟨index, operand, found⟩ := comes_switchTable numbered
  obtain rfl := stays_switchTable numbered
  obtain ⟨cases, f₃, labels, h₃⟩ := comes_bind.1 h₂
  obtain ⟨values, targets, inside⟩ := comes_caseLabels labels
  obtain ⟨rfl, -⟩ := comes_pure.1 h₃
  have ascending : cases.Pairwise fun a b => a.1 < b.1 := by
    have keys := List.pairwise_map.2 table.ascending
    rw [← values] at keys
    exact List.pairwise_map.1 keys
  have listed : (Instruction.switch (slotExpr ctx s) (IntMap.ofList cases)).targets =
      cases.map Prod.snd := by
    rw [Instruction.targets, IntMap.values, IntMap.entries_ofList ascending]
  rw [pc_pop popped] at operand targets
  constructor
  · have offsets : ctx.code.jumps f.pc .switch = table.values.map (Script.target f.pc) := by
      simp only [Script.jumps, operand, found, Option.elim_some]
    rw [listed, List.map_map, offsets, IntMap.values, List.map_map]
    exact targets
  · rw [listed]
    intro l member
    obtain ⟨case, among, rfl⟩ := List.mem_map.1 member
    exact inside case among

theorem jumps_goto (h : Comes (goto ctx) f i f') : Jumps ctx f.pc .goto i := by
  obtain ⟨offset, f₁, taken, h₁⟩ := comes_bind.1 h
  have operand := comes_intOperand taken
  obtain rfl := stays_intOperand taken
  obtain ⟨l, f₂, target, h₂⟩ := comes_bind.1 h₁
  obtain ⟨lands, inside⟩ := comes_jump target
  obtain ⟨rfl, -⟩ := comes_pure.1 h₂
  exact ⟨by simpa [Instruction.targets, Script.jumps, operand] using lands,
    by simpa [Instruction.targets] using inside⟩

theorem jumps_branchCompare (h : Comes (branchCompare ctx opcode) f i f') :
    Jumps ctx f.pc .branchCompare i := by
  obtain ⟨offset, f₁, taken, h₁⟩ := comes_bind.1 h
  have operand := comes_intOperand taken
  obtain rfl := stays_intOperand taken
  obtain ⟨l, f₂, target, h₂⟩ := comes_bind.1 h₁
  obtain ⟨lands, inside⟩ := comes_jump target
  obtain ⟨right, f₃, -, h₃⟩ := comes_bind.1 h₂
  obtain ⟨left, f₄, -, h₄⟩ := comes_bind.1 h₃
  obtain ⟨_, f₅, -, h₅⟩ := comes_bind.1 h₄
  obtain ⟨rfl, -⟩ := comes_pure.1 h₅
  exact ⟨by simpa [Instruction.targets, Script.jumps, operand] using lands,
    by simpa [Instruction.targets] using inside⟩

theorem jumps_command (h : Comes (command ctx opcode c) f i f') : Jumps ctx f.pc c i := by
  cases jumping : c.isJump with
  | false =>
    have none := (gives_command ctx opcode c _ _ _ h).targets jumping
    exact ⟨by rw [none, Script.jumps_of_not_isJump jumping, List.map_nil], by simp [none]⟩
  | true =>
    cases c with
    | switch => exact jumps_switch h
    | goto => exact jumps_goto h
    | branchCompare => exact jumps_branchCompare h
    | _ => simp [Command.isJump, Command.isDecision] at jumping

variable {table : Table}

theorem inside_positions {pc : Nat} {opcodes : List Opcode} {insns : List Instruction}
    (h : Comes (positions ctx table pc opcodes) f insns f') :
    ∀ l ∈ jumpTargets insns, l < ctx.code.length := by
  induction opcodes generalizing pc f insns with
  | nil =>
    obtain ⟨rfl, -⟩ := comes_pure.1 h
    simp [jumpTargets]
  | cons opcode opcodes ih =>
    obtain ⟨i, f₁, rest, one, later, rfl⟩ := comes_positions_cons.1 h
    obtain ⟨c, -, made, -⟩ := comes_position one
    intro l member
    rcases List.mem_append.1 member with here | there
    · exact (jumps_command made).inside l here
    · exact ih later l there

end Lift

end ClientScript
