import ClientScript.Proofs.Lift.Jumps
import ClientScript.Script.Builder
import Mathlib.Data.List.Induction

/-!
Assembled scripts. What a line adds to a script stays where it is, whatever lines come behind it.
Main statement: a jump that is written to an absolute position is lifted to that position if the
script has it, and is refused if not; a switch finds the table that was written with it. Offsets
and table numbers are stored in 32 bits, so both hold only as far as these reach.
-/
namespace ClientScript

def IsInt32 (n : Int) : Prop := -2147483648 ≤ n ∧ n < 2147483648

instance (n : Int) : Decidable (IsInt32 n) := inferInstanceAs (Decidable (_ ∧ _))

namespace Script

structure Extends (s s' : Script) : Prop where
  opcodes : s.opcodes <+: s'.opcodes
  operands : s.operands <+: s'.operands
  switches : s.switches <+: s'.switches

variable {s s' s'' : Script} {l : Line} {lines before after : List Line}

theorem Extends.refl (s : Script) : Extends s s :=
  ⟨List.prefix_rfl, List.prefix_rfl, List.prefix_rfl⟩

theorem Extends.trans (h : Extends s s') (k : Extends s' s'') : Extends s s'' :=
  ⟨h.opcodes.trans k.opcodes, h.operands.trans k.operands, h.switches.trans k.switches⟩

theorem extends_append (s : Script) (l : Line) : Extends s (s.append l) := by
  cases l <;> constructor <;> simp [append, emit]

theorem extends_appendAll (s : Script) (lines : List Line) : Extends s (lines.foldl append s) := by
  induction lines generalizing s with
  | nil => exact .refl s
  | cons l lines ih => exact (extends_append s l).trans (ih (s.append l))

theorem extends_line (before : List Line) (l : Line) (after : List Line) :
    Extends ((ofLines before).append l) (ofLines (before ++ l :: after)) := by
  rw [ofLines, ofLines, List.foldl_append, List.foldl_cons]
  exact extends_appendAll _ after

theorem length_append_switch (s : Script) (cases : List (Int32 × Nat)) :
    (s.append (.switch cases)).length = s.length + 1 :=
  length_emit s .switch (.int (Int32.ofNat s.switches.length))

theorem switches_append_switch (s : Script) (cases : List (Int32 × Nat)) :
    (s.append (.switch cases)).switches =
      s.switches ++ [IntMap.ofList (cases.map fun c => (c.1, offset s.length c.2))] := rfl

theorem even_ofLines (lines : List Line) :
    (ofLines lines).operands.length = (ofLines lines).length := by
  induction lines using List.reverseRecOn with
  | nil => rfl
  | append_singleton lines l ih =>
    rw [ofLines, List.foldl_concat]
    exact operands_append ih l

theorem at_end_of_shorter {α : Type} {xs ys : List α} {a : α} {n : Nat} (length : xs.length = n)
    (longer : xs ++ [a] <+: ys) : ys[n]? = some a := by
  obtain ⟨rest, rfl⟩ := longer
  simp [← length]

end Script

namespace Lift

open Script

variable {ctx : Context} {f : Frame} {pc t : Nat} {offset : Int32}

/-- From position `pc` an offset leads to position `t`, if the script has it. -/
def LeadsTo (ctx : Context) (pc : Nat) (offset : Int32) (t : Nat) : Prop :=
  ∀ f : Frame, f.pc = pc → (jump ctx offset).run.run f =
    (if t < ctx.code.length then .ok t
      else .error (.malformed ctx.script (.atPosition pc (.jumpOutside t))), f)

theorem leadsTo_offset (ctx : Context) (fits : IsInt32 (t - pc - 1)) :
    LeadsTo ctx pc (Script.offset pc t) t := by
  rintro f rfl
  have target := target_offset f.pc t fits.1 fits.2
  have run : (jump ctx (Script.offset f.pc t)).run.run f =
      (if 0 ≤ (t : Int) ∧ (t : Int) < ctx.code.length then (pure (t : Int).toNat : Lift Label)
        else defect ctx (.jumpOutside t)).run.run f := by
    rw [← target]
    rfl
  rw [run]
  by_cases inside : t < ctx.code.length
  · rw [if_pos (by omega), if_pos inside]
    rfl
  · rw [if_neg (by omega), if_neg inside]
    rfl

theorem toInt_ofNat {n : Nat} (fits : IsInt32 n) : (Int32.ofNat n).toInt = n :=
  Int32.toInt_ofNat_of_lt (Int.ofNat_lt.1 fits.2)

theorem run_switchTable {n : Nat} {table : IntMap Int32}
    (operand : ctx.code.operands[f.pc]? = some (.int (Int32.ofNat n))) (fits : IsInt32 n)
    (found : ctx.code.switches[n]? = some table) :
    (switchTable ctx).run.run f = (.ok table, f) := by
  refine comes_bind.2 ⟨_, f, comes_intOperand_iff.2 ⟨operand, rfl⟩, ?_⟩
  have selected : (if 0 ≤ (Int32.ofNat n).toInt then
      ctx.code.switches[(Int32.ofNat n).toInt.toNat]? else none) = some table := by
    rw [toInt_ofNat fits, if_pos (Int.natCast_nonneg n), Int.toNat_natCast, found]
  simp only [selected]
  exact comes_pure.2 ⟨rfl, rfl⟩

theorem run_switchTable_of_neg {index : Int32}
    (operand : ctx.code.operands[f.pc]? = some (.int index)) (negative : index.toInt < 0) :
    (switchTable ctx).run.run f =
      (.error (.malformed ctx.script (.atPosition f.pc (.noSwitchTable index))), f) := by
  have read : Comes (intOperand ctx) f index f := comes_intOperand_iff.2 ⟨operand, rfl⟩
  have none : (if 0 ≤ index.toInt then ctx.code.switches[index.toInt.toNat]? else none) = none :=
    if_neg (Int.not_le.2 negative)
  rw [switchTable, run_of_comes read]
  simp only [none]
  rfl

structure JumpKept (ctx : Context) (pc : Nat) (opcode : Opcode) (t : Nat) : Prop where
  opcode : ctx.code.opcodes[pc]? = some opcode
  offset : ∃ offset, ctx.code.operands[pc]? = some (.int offset) ∧
    (IsInt32 (t - pc - 1) → LeadsTo ctx pc offset t)

/-- A switch stands where it was written and finds the table that was written with it, in which the
    last case of a value leads where it was written to. The operand holds `number` in 32 bits, so
    from 2147483648 tables on it does not name the table any more, which is there all the same. -/
structure SwitchKept (ctx : Context) (pc number : Nat) (cases : List (Int32 × Nat)) : Prop where
  opcode : ctx.code.opcodes[pc]? = some .switch
  table : ∃ table, ctx.code.switches[number]? = some table ∧
    (IsInt32 number → ∀ f : Frame, f.pc = pc → (switchTable ctx).run.run f = (.ok table, f)) ∧
    (∀ value, value ∈ table.keys ↔ value ∈ cases.map Prod.fst) ∧
    ∀ value t, IntMap.find value cases.reverse = some t → ∃ offset,
      table.get? value = some offset ∧ (IsInt32 (t - pc - 1) → LeadsTo ctx pc offset t)

def LineKept (ctx : Context) (before : List Line) : Line → Prop
  | .jump opcode t => JumpKept ctx (ofLines before).length opcode t
  | .switch cases =>
    SwitchKept ctx (ofLines before).length (ofLines before).switches.length cases
  | .op opcode operand => ctx.code.opcodes[(ofLines before).length]? = some opcode ∧
    ctx.code.operands[(ofLines before).length]? = some operand
  | .arguments .. | .returns .. => True

theorem find_map {α β : Type} (g : α → β) (k : Int32) (es : List (Int32 × α)) :
    IntMap.find k (es.map fun e => (e.1, g e.2)) = (IntMap.find k es).map g := by
  induction es with
  | nil => rfl
  | cons e es ih =>
    simp only [List.map_cons, IntMap.find]
    split
    · rfl
    · exact ih

theorem found_emit {s : Script} (even : s.operands.length = s.length) {opcode : Opcode}
    {operand : Value} {whole : Script} (longer : Extends (s.emit opcode operand) whole) :
    whole.opcodes[s.length]? = some opcode ∧ whole.operands[s.length]? = some operand :=
  ⟨at_end_of_shorter rfl longer.opcodes, at_end_of_shorter even longer.operands⟩

theorem jumpKept {before : List Line} {opcode : Opcode} {t : Nat}
    (longer : Extends ((ofLines before).append (.jump opcode t)) ctx.code) :
    JumpKept ctx (ofLines before).length opcode t := by
  obtain ⟨op, operand⟩ := found_emit (even_ofLines before) longer
  exact ⟨op, _, operand, leadsTo_offset ctx⟩

theorem found_switch {before : List Line} {cases : List (Int32 × Nat)}
    (longer : Extends ((ofLines before).append (.switch cases)) ctx.code) :
    ctx.code.opcodes[(ofLines before).length]? = some .switch ∧
      ctx.code.operands[(ofLines before).length]? =
        some (.int (Int32.ofNat (ofLines before).switches.length)) := by
  have emitted : Extends ((ofLines before).emit .switch
      (.int (Int32.ofNat (ofLines before).switches.length))) ctx.code :=
    ⟨longer.opcodes, longer.operands, (List.prefix_append _ _).trans longer.switches⟩
  exact found_emit (even_ofLines before) emitted

theorem switchKept {before : List Line} {cases : List (Int32 × Nat)}
    (longer : Extends ((ofLines before).append (.switch cases)) ctx.code) :
    SwitchKept ctx (ofLines before).length (ofLines before).switches.length cases := by
  obtain ⟨op, operand⟩ := found_switch longer
  have found := at_end_of_shorter rfl longer.switches
  refine ⟨op, _, found, ?_, fun value => ?_, fun value t last => ?_⟩
  · rintro fits f here
    exact run_switchTable (here ▸ operand) fits found
  · rw [IntMap.mem_keys_iff, IntMap.get?_ofList, IntMap.isSome_find]
    simp
  · refine ⟨_, ?_, leadsTo_offset ctx⟩
    rw [IntMap.get?_ofList, ← List.map_reverse, find_map, last]
    rfl

/-- Whatever lines come before and behind it, a line of an assembled script keeps its meaning: a
    jump and a case of a switch as far as the offset fits 32 bits, and the operand of a switch as
    far as the number of tables before it does. -/
theorem assembled_keeps (ctx : Context) (before after : List Line) (l : Line)
    (assembled : ctx.code = ofLines (before ++ l :: after)) : LineKept ctx before l := by
  have longer : Extends ((ofLines before).append l) ctx.code :=
    assembled ▸ extends_line before l after
  cases l with
  | arguments | returns => trivial
  | op opcode operand => exact found_emit (even_ofLines before) longer
  | jump opcode t => exact jumpKept longer
  | switch cases => exact switchKept longer

end Lift

namespace Sample

open Script (ofLines)

/-- A jump to a switch that has two cases for one value and one case behind the end. -/
def hopper : Script :=
  ofLines [.jump .branch 2, .pushInt 1, .switch [(3, 1), (5, 7), (3, 0)], .op .ret (.int 0)]

def hopping : Context := ⟨0, hopper, .empty, .none, true⟩

/-- Of the two cases the later one counts, and it leads back. -/
theorem hopping_keeps : hopping.code =
      ofLines ([.jump .branch 2, .pushInt 1] ++ .switch [(3, 1), (5, 7), (3, 0)] ::
        [.op .ret (.int 0)]) ∧
    ∃ table : IntMap Int32,
      hopping.code.switches[0]? = some table ∧ table.entries = [(3, -3), (5, 4)] ∧
      (Lift.switchTable hopping).run.run ⟨2, [], 0, 0, []⟩ = (.ok table, ⟨2, [], 0, 0, []⟩) ∧
      Lift.LeadsTo hopping 2 (-3) 0 ∧ Lift.LeadsTo hopping 2 4 7 := by
  refine ⟨rfl, ?_⟩
  obtain ⟨-, table, found, numbered, -, cases⟩ := Lift.assembled_keeps hopping
    [.jump .branch 2, .pushInt 1] [.op .ret (.int 0)] (.switch [(3, 1), (5, 7), (3, 0)]) rfl
  have entries : hopping.code.switches.map IntMap.entries = [[(3, -3), (5, 4)]] := by
    decide +kernel
  have listed : table.entries = [(3, -3), (5, 4)] := by
    have first := congrArg (·[0]?) entries
    rw [List.getElem?_map] at first
    exact Option.some.inj ((congrArg _ found.symm).trans first)
  obtain ⟨back, at_three, leads⟩ := cases 3 0 (by decide +kernel)
  obtain ⟨out, at_five, leads'⟩ := cases 5 7 (by decide +kernel)
  rw [IntMap.get?, listed] at at_three at_five
  obtain rfl : -3 = back := Option.some.inj at_three
  obtain rfl : 4 = out := Option.some.inj at_five
  exact ⟨table, found, listed, numbered (by decide) _ rfl, leads (by decide +kernel),
    leads' (by decide +kernel)⟩

theorem ofLines_replicate_switch (cases : List (Int32 × Nat)) (n : Nat) :
    (ofLines (List.replicate n (.switch cases))).length = n ∧
      (ofLines (List.replicate n (.switch cases))).switches.length = n := by
  induction n with
  | zero => exact ⟨rfl, rfl⟩
  | succ n ih =>
    obtain ⟨length, tables⟩ := ih
    rw [List.replicate_succ', ofLines, List.foldl_concat, ← ofLines]
    constructor
    · rw [Script.length_append_switch, length]
    · rw [Script.switches_append_switch, List.length_append, tables]
      rfl

def crowd (n : Nat) : Context :=
  ⟨0, ofLines (List.replicate n (.switch []) ++ [.switch [(3, 7)]]), .empty, .none, true⟩

theorem switchTable_crowd {n : Nat} (negative : (Int32.ofNat n).toInt < 0) :
    (∃ table, (crowd n).code.opcodes[n]? = some .switch ∧
      (crowd n).code.switches[n]? = some table ∧ table.keys = [3]) ∧
    (Lift.switchTable (crowd n)).run.run ⟨n, [], 0, 0, []⟩ =
      (.error (.malformed 0 (.atPosition n (.noSwitchTable (Int32.ofNat n)))),
        ⟨n, [], 0, 0, []⟩) := by
  have longer : Script.Extends ((ofLines (List.replicate n (.switch []))).append
      (.switch [(3, 7)])) (crowd n).code := Script.extends_line _ _ []
  obtain ⟨length, tables⟩ := ofLines_replicate_switch [] n
  obtain ⟨opcode, operand⟩ := Lift.found_switch longer
  have found := Script.at_end_of_shorter rfl longer.switches
  rw [length] at opcode operand
  rw [tables] at operand found
  exact ⟨⟨_, opcode, found, rfl⟩, Lift.run_switchTable_of_neg operand negative⟩

/-- A switch behind so many others that the number of its table is cut to a negative operand: the
    table is there, and the switch does not find it. -/
theorem crowd_loses :
    (∃ table, (crowd 2147483648).code.opcodes[2147483648]? = some .switch ∧
      (crowd 2147483648).code.switches[2147483648]? = some table ∧ table.keys = [3]) ∧
    (Lift.switchTable (crowd 2147483648)).run.run ⟨2147483648, [], 0, 0, []⟩ =
      (.error (.malformed 0 (.atPosition 2147483648 (.noSwitchTable (-2147483648)))),
        ⟨2147483648, [], 0, 0, []⟩) := by
  have number : Int32.ofNat 2147483648 = -2147483648 := by decide
  have lost := switchTable_crowd (n := 2147483648) (by decide)
  rwa [number] at lost

end Sample

end ClientScript
