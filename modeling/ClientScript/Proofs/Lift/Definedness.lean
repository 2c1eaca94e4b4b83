import ClientScript.Proofs.Lift.Anchors
import ClientScript.Proofs.Lift.Trace
import ClientScript.Proofs.Structure.Speculation

/-!
Stack slots on the paths through lifted code. A script is lifted in one pass over its positions, and
only behind terminal instructions the operand stack is sure to be empty: where a jump lands, the
pass may hold slots that the path has not written. Main statement: this is the only way in which a
path comes to read a slot that it has not written.
-/
namespace ClientScript

namespace Event

def reads : Event → List Variable
  | .executes i => i.reads
  | .tests e | .dispatches e => e.parts.filterMap Expr.location?

def writes : Event → List Variable
  | .executes i => i.writes
  | .tests _ | .dispatches _ => []

end Event

def written (es : List Event) : List Variable := es.flatMap Event.writes

theorem written_append (es fs : List Event) : written (es ++ fs) = written es ++ written fs :=
  List.flatMap_append

def Instruction.shows (i : Instruction) : List Event :=
  match i with
  | .assign .. | .ret _ => [.executes i]
  | .branch e _ => [.tests e]
  | .switch e _ => [.dispatches e]
  | .goto _ | .label _ => []

def Function.path (f : Function) (o : Oracle) (steps : Nat) :
    List Event × Option (List Instruction) :=
  (Machine.ofCode f.code.instructions).run o steps 0 f.code.instructions

theorem Function.path_trans {f : Function} {o : Oracle} {n a : Nat} {es fs : List Event}
    {ahead : List Instruction} {r : Option (List Instruction)}
    (first : f.path o n = (es, some ahead))
    (later : (Machine.ofCode f.code.instructions).run o a (decisions es) ahead = (fs, r)) :
    f.path o (n + a) = (es ++ fs, r) := by
  apply Machine.run_trans first
  rw [Nat.zero_add]
  exact later

theorem Function.path_succ {f : Function} {o : Oracle} {n : Nat} {es fs : List Event}
    {ahead : List Instruction} {r : Option (List Instruction)}
    (first : f.path o n = (es, some ahead))
    (last : (Machine.ofCode f.code.instructions).step o (decisions es) ahead = (fs, r)) :
    f.path o (n + 1) = (es ++ fs, r) := path_trans first (Machine.run_one last)

/-- On no path a stack slot is read before it is written. -/
def Function.DefinesBeforeUse (f : Function) : Prop :=
  ∀ o n k e, (f.path o n).1[k]? = some e → ∀ v ∈ e.reads, v.isStack →
    v ∈ written ((f.path o n).1.take k)

/-- A path has stood behind a label without having written a variable that is a slot on the operand
    stack when the position of the label is lifted. -/
def Context.Misses (ctx : Context) (table : Table) (f : Function) (o : Oracle) (es : List Event)
    (v : Variable) : Prop :=
  ∃ n before ahead l frame,
    f.path o n = (before, some ahead) ∧ before <+: es ∧
    behind l f.code.instructions = some ahead ∧ ctx.frameAt? table l = some frame ∧
    v ∈ frame.stack.map (Lift.slotVariable ctx) ∧ v ∉ written before

theorem Instruction.reads_shows {i : Instruction} {e : Event} (shown : e ∈ i.shows) :
    e.reads = i.reads := by
  cases i <;> simp_all [shows, Event.reads, Instruction.reads, Instruction.operands]

theorem Instruction.written_shows (i : Instruction) : written i.shows = i.writes := by
  cases i <;> simp [written, shows, Event.writes, Instruction.writes, Instruction.definitions]

theorem Instruction.shows_of_reads {i : Instruction} {v : Variable} (reads : v ∈ i.reads) :
    ∃ e, i.shows = [e] := by
  cases i <;> simp_all [shows, Instruction.reads, Instruction.operands]

namespace Lift

variable {insns is ahead code : List Instruction} {targets : List Label} {pc l : Nat}
  {i : Instruction}

theorem behind_withLabels (plain : ∀ i ∈ is, i.anchor? = none) :
    behind l (withLabels targets pc is) = if pc ≤ l ∧ l ∈ targets then
      is[l - pc]?.map (· :: withLabels targets (l + 1) (is.drop (l - pc + 1))) else none := by
  induction is generalizing pc with
  | nil => simp [withLabels, behind]
  | cons i is ih =>
    have here : behind l (i :: withLabels targets (pc + 1) is) =
        behind l (withLabels targets (pc + 1) is) := by
      simp [behind, plain i (by simp)]
    rw [withLabels, behind_append, here, ih fun i member => plain i (by simp [member])]
    rcases Nat.lt_trichotomy l pc with before | rfl | after
    · have other : behind l (if pc ∈ targets then [.label pc] else []) = none := by
        split <;> simp [behind, Instruction.anchor?, Nat.ne_of_gt before]
      rw [other, if_neg (by omega), if_neg (by omega)]
      rfl
    · rw [if_neg (by omega)]
      by_cases among : l ∈ targets <;> simp [among, behind, Instruction.anchor?]
    · have other : behind l (if pc ∈ targets then [.label pc] else []) = none := by
        split <;> simp [behind, Instruction.anchor?, Nat.ne_of_lt after]
      obtain ⟨d, rfl⟩ := Nat.exists_eq_add_of_lt after
      rw [other, Option.map_none, Option.or_none]
      have shift : pc + d + 1 - pc = d + 1 := by omega
      have shift' : pc + d + 1 - (pc + 1) = d := by omega
      rw [shift, shift', List.getElem?_cons_succ, List.drop_succ_cons]
      simp only [show pc + 1 ≤ pc + d + 1 ↔ pc ≤ pc + d + 1 by omega]

/-- What of the code is ahead at a position, with the label in front of it or without. -/
inductive Standing (insns : List Instruction) (pc : Nat) : List Instruction → Prop where
  | front : Standing insns pc (withLabels (jumpTargets insns) pc (insns.drop pc))
  | inner {i : Instruction} (here : insns[pc]? = some i) :
    Standing insns pc (i :: withLabels (jumpTargets insns) (pc + 1) (insns.drop (pc + 1)))

theorem standing_behind (plain : ∀ i ∈ insns, i.anchor? = none)
    (lands : behind l (withLabels (jumpTargets insns) 0 insns) = some ahead) :
    Standing insns l ahead ∧ l < insns.length := by
  rw [behind_withLabels plain] at lands
  split at lands
  · obtain ⟨i, here, rfl⟩ := Option.map_eq_some_iff.1 lands
    exact ⟨.inner here, (List.getElem?_eq_some_iff.1 here).1⟩
  · simp at lands

theorem Standing.enter (h : Standing insns pc ahead) (here : insns[pc]? = some i) (o : Oracle)
    (met : Nat) : ∃ a, (Machine.ofCode code).run o a met ahead =
      ([], some (i :: withLabels (jumpTargets insns) (pc + 1) (insns.drop (pc + 1)))) := by
  cases h with
  | inner here' =>
    obtain rfl := Option.some.inj (here.symm.trans here')
    exact ⟨0, rfl⟩
  | front =>
    rw [withLabels_drop _ here]
    split
    · exact ⟨1, Machine.run_one rfl⟩
    · exact ⟨0, rfl⟩

def Single (i : Instruction) : Prop :=
  ∀ c l, i = .branch c l → ∀ (o : Oracle) met, o.evaluate met c = (o.holds met, [.tests c])

theorem step_shows (code : List Instruction) (plain : i.anchor? = none) (single : Single i)
    (o : Oracle) (met : Nat) (rest : List Instruction) :
    ∃ r, (Machine.ofCode code).step o met (i :: rest) = (i.shows, r) ∧
      ∀ ahead, r = some ahead → ahead = rest ∨ ∃ l, behind l code = some ahead := by
  cases i with
  | assign | ret => exact ⟨_, rfl, by simp⟩
  | goto l => exact ⟨_, rfl, fun ahead lands => .inr ⟨l, lands⟩⟩
  | label l => simp [Instruction.anchor?] at plain
  | branch c l =>
    simp only [Machine.ofCode, single c l rfl]
    refine ⟨_, rfl, fun ahead next => ?_⟩
    split at next
    · exact .inr ⟨l, next⟩
    · exact .inl (Option.some.inj next).symm
  | switch e cases =>
    refine ⟨_, rfl, fun ahead next => ?_⟩
    split at next
    · exact .inr ⟨_, next⟩
    · exact .inl (Option.some.inj next).symm

theorem evaluate_single {opcode : Opcode} (or : opcode ≠ .shortOr) (and : opcode ≠ .shortAnd)
    (arguments : List Expr) (results : List StackType) (typings : List TypeVar) (dot : Bool)
    (o : Oracle) (met : Nat) : o.evaluate met (.op opcode arguments results typings dot) =
      (o.holds met, [.tests (.op opcode arguments results typings dot)]) := by
  match arguments with
  | [] | [_] | _ :: _ :: _ :: _ => rw [Oracle.evaluate]; simp
  | [_, _] => rw [Oracle.evaluate, if_neg or, if_neg and]

end Lift

theorem Context.Misses.mono {ctx : Context} {table : Table} {f : Function} {o : Oracle}
    {es fs : List Event} {v : Variable} (h : ctx.Misses table f o es v) (longer : es <+: fs) :
    ctx.Misses table f o fs v := by
  obtain ⟨n, before, ahead, l, frame, run, first, rest⟩ := h
  exact ⟨n, before, ahead, l, frame, run, first.trans longer, rest⟩

namespace Context.Traced

open Lift

variable {ctx : Context} {table : Table} {f : Function} {insns : List Instruction}

theorem instructions (h : ctx.Traced table f insns) :
    f.code.instructions = withLabels (jumpTargets insns) 0 insns := by
  rw [h.code, instructions_anchored]

theorem single (h : ctx.Traced table f insns) (or : table.lookup? .shortOr = none)
    (and : table.lookup? .shortAnd = none) {pc : Nat} {i : Instruction}
    (here : insns[pc]? = some i) : Single i := by
  obtain ⟨opcode, _, _, named, -, -, ⟨_, _, _, -, -, asks⟩, -, -⟩ := h.steps pc i here
  rintro c l rfl o met
  obtain ⟨arguments, rfl⟩ := asks
  refine evaluate_single ?_ ?_ arguments [] [] false o met
  · rintro rfl
    simp [or] at named
  · rintro rfl
    simp [and] at named

/-- A path stands at a position and has written the slots on the stack there that it has not
    missed. -/
def Ready (ctx : Context) (table : Table) (f : Function) (insns : List Instruction) (o : Oracle)
    (es : List Event) (ahead : List Instruction) : Prop :=
  ∃ pc F, pc ≤ insns.length ∧ Standing insns pc ahead ∧ ctx.frameAt? table pc = some F ∧
    ∀ s ∈ F.stack, slotVariable ctx s ∈ written es ∨
      ctx.Misses table f o es (slotVariable ctx s)

structure Proceeds (ctx : Context) (table : Table) (f : Function) (insns : List Instruction)
    (o : Oracle) (es fs : List Event) (r : Option (List Instruction)) : Prop where
  one : fs.length ≤ 1
  reads : ∀ e ∈ fs, ∃ i ∈ f.code.instructions, e.reads = i.reads ∧
    ∀ v ∈ e.reads, v.isStack → v ∈ written es ∨ ctx.Misses table f o es v
  ready : ∀ next, r = some next → Ready ctx table f insns o (es ++ fs) next

section

variable {o : Oracle} {n : Nat} {es fs : List Event} {r : Option (List Instruction)}

theorem ready_behind (h : ctx.Traced table f insns) {l : Label} {ahead : List Instruction}
    (path : f.path o n = (es, some ahead)) (lands : behind l f.code.instructions = some ahead) :
    Ready ctx table f insns o es ahead := by
  have lands' := lands
  rw [h.instructions] at lands'
  obtain ⟨standing, low⟩ := standing_behind h.plain lands'
  obtain ⟨F, at_l, -⟩ := h.frame (Nat.le_of_lt low)
  refine ⟨l, F, Nat.le_of_lt low, standing, at_l, fun s on => or_iff_not_imp_left.2 ?_⟩
  intro unwritten
  exact ⟨n, es, ahead, l, F, path, List.prefix_refl _, lands, at_l, List.mem_map_of_mem on,
    unwritten⟩

theorem proceeds_instruction (h : ctx.Traced table f insns) (single : ∀ i ∈ insns, Single i)
    {pc : Nat} {i : Instruction} {F : Frame} (here : insns[pc]? = some i)
    (at_pc : ctx.frameAt? table pc = some F)
    (defined : ∀ s ∈ F.stack, slotVariable ctx s ∈ written es ∨
      ctx.Misses table f o es (slotVariable ctx s))
    (path : f.path o n = (es, some (i ::
      withLabels (jumpTargets insns) (pc + 1) (insns.drop (pc + 1)))))
    (step : (Machine.ofCode f.code.instructions).step o (decisions es) (i ::
      withLabels (jumpTargets insns) (pc + 1) (insns.drop (pc + 1))) = (fs, r)) :
    Proceeds ctx table f insns o es fs r := by
  have member := List.mem_of_getElem? here
  obtain ⟨_, F₁, F', -, from_here, to_next, moves, -, -⟩ := h.steps pc i here
  obtain rfl : F = F₁ := Option.some.inj (at_pc.symm.trans from_here)
  obtain ⟨r', shows, next⟩ := step_shows f.code.instructions (h.plain i member)
    (single i member) o (decisions es)
    (withLabels (jumpTargets insns) (pc + 1) (insns.drop (pc + 1)))
  obtain ⟨rfl, rfl⟩ := Prod.mk.inj (step.symm.trans shows)
  refine ⟨by cases i <;> simp [Instruction.shows], ?_, ?_⟩
  · intro e shown
    have same := Instruction.reads_shows shown
    refine ⟨i, ?_, same, fun v read onStack => ?_⟩
    · rw [h.instructions]
      exact mem_withLabels_of_mem member
    · obtain ⟨s, on, rfl, -⟩ := moves.reads (same ▸ read) onStack
      exact defined s on
  · intro ahead goes
    rcases next ahead goes with rfl | ⟨l, lands⟩
    · refine ⟨pc + 1, F', (List.getElem?_eq_some_iff.1 here).1, .front, to_next, ?_⟩
      intro s on
      rw [written_append, Instruction.written_shows, List.mem_append]
      rcases moves.held on with writes | before
      · exact .inl (.inr writes)
      · exact (defined s before).imp .inl (.mono · (List.prefix_append ..))
    · rw [goes] at step
      exact h.ready_behind (Function.path_succ path step) lands

theorem proceeds (h : ctx.Traced table f insns) (single : ∀ i ∈ insns, Single i)
    {ahead : List Instruction} (path : f.path o n = (es, some ahead))
    (ready : Ready ctx table f insns o es ahead)
    (step : (Machine.ofCode f.code.instructions).step o (decisions es) ahead = (fs, r)) :
    Proceeds ctx table f insns o es fs r := by
  obtain ⟨pc, F, inside, standing, at_pc, defined⟩ := ready
  cases standing with
  | inner here => exact h.proceeds_instruction single here at_pc defined path step
  | front =>
    cases here : insns[pc]? with
    | none =>
      rw [List.drop_eq_nil_of_le (List.getElem?_eq_none_iff.1 here), withLabels] at step
      obtain ⟨rfl, rfl⟩ := Prod.mk.inj step
      exact ⟨by simp, by simp, by simp⟩
    | some i =>
      rw [withLabels_drop _ here] at path step
      split at step <;> rename_i target
      · -- The label is passed.
        obtain ⟨rfl, rfl⟩ := Prod.mk.inj step
        refine ⟨by simp, by simp, ?_⟩
        rintro _ ⟨⟩
        exact ⟨pc, F, inside, .inner here, at_pc, by simpa using defined⟩
      · rw [if_neg target] at path
        exact h.proceeds_instruction single here at_pc defined path step

end

/-- What a path reads it has written, or has missed at a label. -/
theorem written_or_missed (h : ctx.Traced table f insns) (single : ∀ i ∈ insns, Single i)
    {o : Oracle} {n : Nat} {es : List Event} {r : Option (List Instruction)}
    (run : f.path o n = (es, r)) :
    (∀ (k : Nat) e, es[k]? = some e → ∃ i ∈ f.code.instructions, e.reads = i.reads ∧
      ∀ v ∈ e.reads, v.isStack →
        v ∈ written (es.take k) ∨ ctx.Misses table f o (es.take k) v) ∧
    ∀ ahead, r = some ahead → Ready ctx table f insns o es ahead := by
  induction n generalizing es r with
  | zero =>
    obtain ⟨rfl, rfl⟩ := Prod.mk.inj run
    refine ⟨by simp, ?_⟩
    rintro _ ⟨⟩
    refine ⟨0, .start, Nat.zero_le _, ?_, rfl, by simp [Frame.start]⟩
    rw [h.instructions]
    exact .front
  | succ n ih =>
    rcases before : f.path o n with ⟨es₁, _ | ahead⟩
    · rw [Function.path, Machine.run_ended before] at run
      obtain ⟨rfl, rfl⟩ := Prod.mk.inj run
      exact ⟨(ih before).1, by simp⟩
    · rcases step : (Machine.ofCode f.code.instructions).step o (decisions es₁) ahead with
        ⟨fs, r₁⟩
      obtain ⟨well, ready⟩ := ih before
      obtain ⟨one, reads, next⟩ := h.proceeds single before (ready _ rfl) step
      rw [Function.path_succ before step] at run
      obtain ⟨rfl, rfl⟩ := Prod.mk.inj run
      refine ⟨fun k e at_k => ?_, next⟩
      -- One step shows at most one event, so a late one is the first behind those before.
      rcases Nat.lt_or_ge k es₁.length with early | late
      · rw [List.getElem?_append_left early] at at_k
        rw [List.take_append_of_le_length (Nat.le_of_lt early)]
        exact well k e at_k
      · rw [List.getElem?_append_right late] at at_k
        have member := List.mem_of_getElem? at_k
        have last : k - es₁.length < fs.length := (List.getElem?_eq_some_iff.1 at_k).1
        rw [show k = es₁.length by omega, List.take_left]
        exact reads e member

theorem walk (h : ctx.Traced table f insns) {o : Oracle} {n l q : Nat} {es : List Event}
    {ahead : List Instruction} {F : Frame} {s : Slot}
    (run : f.path o n = (es, some ahead)) (standing : Standing insns l ahead)
    (at_l : ctx.frameAt? table l = some F)
    (old : s.id < F.nextSlot) (le : l ≤ q) (inside : q ≤ insns.length)
    (stays : ∀ m G, m ≤ q → l ≤ m → ctx.frameAt? table m = some G → s ∈ G.stack) :
    ∃ n' es' ahead', f.path o n' = (es ++ es', some ahead') ∧ Standing insns q ahead' ∧
      slotVariable ctx s ∉ written es' := by
  induction le with
  | refl => exact ⟨n, [], ahead, by rw [run, List.append_nil], standing, by simp [written]⟩
  | @step q le ih =>
    obtain ⟨n', es', ahead', run', standing', unwritten⟩ :=
      ih (Nat.le_of_succ_le inside) fun m G low => stays m G (Nat.le_succ_of_le low)
    have here := List.getElem?_eq_getElem inside
    obtain ⟨_, G, G', -, at_q, to_next, moves, terminal, -⟩ := h.steps q _ here
    have on := stays (q + 1) G' (Nat.le_refl _) (Nat.le_succ_of_le le) to_next
    have fresh := moves.fresh (Nat.lt_of_lt_of_le old
      (h.onward le (Nat.le_of_succ_le inside) at_l at_q).1)
    obtain ⟨a, enter⟩ := standing'.enter here o (decisions (es ++ es'))
    have entered := Function.path_trans run' enter
    have plain := h.plain _ (List.mem_of_getElem? here)
    generalize insns[q] = i at *
    cases i with
    | assign definitions e =>
      have stepped := Function.path_succ entered
        (r := some (withLabels (jumpTargets insns) (q + 1) (insns.drop (q + 1)))) rfl
      refine ⟨n' + a + 1, es' ++ [.executes (.assign definitions e)], _, ?_, .front, ?_⟩
      · simpa using stepped
      · rw [written_append, List.mem_append]
        exact not_or.2 ⟨unwritten, by simpa [written, Event.writes] using fresh⟩
    | label => simp [Instruction.anchor?] at plain
    | branch | goto | switch | ret => simp [terminal rfl] at on

/-- A slot on the stack that is read is read further on, and stays on the stack until then. -/
theorem read_ahead (h : ctx.Traced table f insns) {l q : Nat} {F : Frame} {s : Slot}
    {i : Instruction} (low : l ≤ insns.length) (at_l : ctx.frameAt? table l = some F)
    (on : s ∈ F.stack) (here : insns[q]? = some i) (read : slotVariable ctx s ∈ i.reads) :
    l ≤ q ∧ ∃ t, slotVariable ctx t = slotVariable ctx s ∧ t.id < F.nextSlot ∧
      ∀ m H, m ≤ q → l ≤ m → ctx.frameAt? table m = some H → t ∈ H.stack := by
  have inside := (List.getElem?_eq_some_iff.1 here).1
  obtain ⟨F₁, at_l', ordered⟩ := h.frame low
  obtain rfl : F = F₁ := Option.some.inj (at_l.symm.trans at_l')
  obtain ⟨_, G, G', -, at_q, to_next, moves, -, -⟩ := h.steps q _ here
  obtain ⟨G₁, at_q', ordered'⟩ := h.frame (Nat.le_of_lt inside)
  obtain rfl : G = G₁ := Option.some.inj (at_q.symm.trans at_q')
  obtain ⟨t, on', same, gone⟩ := moves.reads read rfl
  have number : t.id = s.id := by
    simp only [slotVariable, Variable.stack.injEq] at same
    exact same.2.1
  have old : t.id < F.nextSlot := number ▸ ordered.below s on
  refine ⟨?_, t, same, old, fun m H below above at_m => ?_⟩
  · -- Behind the read it would be gone.
    by_contra before
    have still := (h.onward (Nat.lt_of_not_le before) low to_next at_l).2 s on
      (Nat.lt_of_lt_of_le (number ▸ ordered'.below t on') moves.next_le)
    exact gone ordered' s still number.symm
  · have grown := (h.onward above (Nat.le_trans below (Nat.le_of_lt inside)) at_l at_m).1
    exact (h.onward below (Nat.le_of_lt inside) at_m at_q).2 t on' (Nat.lt_of_lt_of_le old grown)

/-- If every slot that is read is written before, no slot is missed that some instruction reads. -/
theorem unread_of_missed (h : ctx.Traced table f insns) (single : ∀ i ∈ insns, Single i)
    (defines : f.DefinesBeforeUse) {o : Oracle} {fs : List Event} {v : Variable}
    (misses : ctx.Misses table f o fs v) {i : Instruction} (among : i ∈ f.code.instructions) :
    v ∉ i.reads := by
  intro read
  obtain ⟨n, es, ahead, l, F, path, -, lands, at_l, held, unwritten⟩ := misses
  obtain ⟨s, on, rfl⟩ := List.mem_map.1 held
  apply unwritten
  rw [h.instructions] at lands among
  obtain ⟨standing, low⟩ := standing_behind h.plain lands
  have member : i ∈ insns := by
    rcases mem_withLabels among with member | ⟨l, rfl⟩
    · exact member
    · simp [Instruction.reads, Instruction.operands] at read
  obtain ⟨q, here⟩ := List.mem_iff_getElem?.1 member
  obtain ⟨le, t, same, old, stays⟩ := h.read_ahead (Nat.le_of_lt low) at_l on here read
  -- The path goes on from the label to the read, and there the slot has to be written.
  obtain ⟨n', es', ahead', path', standing', unchanged⟩ :=
    h.walk path standing at_l old le (Nat.le_of_lt (List.getElem?_eq_some_iff.1 here).1) stays
  obtain ⟨a, enter⟩ := standing'.enter here o (decisions (es ++ es'))
  obtain ⟨r, shows, -⟩ := step_shows f.code.instructions (h.plain i member) (single i member) o
    (decisions ((es ++ es') ++ [])) (withLabels (jumpTargets insns) (q + 1) (insns.drop (q + 1)))
  have final := Function.path_succ (Function.path_trans path' enter) shows
  obtain ⟨e, shown⟩ := Instruction.shows_of_reads read
  have event : e.reads = i.reads := Instruction.reads_shows (by rw [shown]; simp)
  have defined := defines o _ (es ++ es').length e (by rw [final, shown]; simp)
    (slotVariable ctx s) (by rw [event]; exact read) rfl
  rw [final, List.append_nil, List.take_left, written_append, List.mem_append] at defined
  exact defined.resolve_right (same ▸ unchanged)

end Context.Traced

/-- On every path through the code that interpreting a script gives, a stack slot that is read has
    been written, or the path has missed it: it came to a label where the lift has the slot on the
    operand stack, and had not written it. That is how slots come to be read before they are
    written: no slot is, if and only if no path misses one that some instruction reads. -/
theorem Setting.slots_written_or_missed {g : Setting} {s : Stores} {id : Int32} {code : Script}
    {f : Function} (made : g.table = .ofFormat g.config.format) (reached : g.Reached s)
    (given : (g.interpret id s).1 = .ok f) (found : g.scripts.get? id = some code) :
    (∀ o n k e, (f.path o n).1[k]? = some e → ∀ v ∈ e.reads, v.isStack →
      v ∈ written ((f.path o n).1.take k) ∨
        (g.context id code).Misses g.table f o ((f.path o n).1.take k) v) ∧
    (f.DefinesBeforeUse ↔ ∀ o es v, (g.context id code).Misses g.table f o es v →
      ∀ i ∈ f.code.instructions, v ∉ i.reads) := by
  obtain ⟨code', found', lifted⟩ := lifts_of_interpret reached given
  obtain rfl : code = code' := Option.some.inj (found.symm.trans found')
  obtain ⟨insns, traced⟩ := Context.traced lifted
  have single : ∀ i ∈ insns, Lift.Single i := by
    intro i member
    obtain ⟨pc, here⟩ := List.mem_iff_getElem?.1 member
    refine traced.single ?_ ?_ here <;> rw [made] <;> cases g.config.format <;> decide +kernel
  have either := fun o n => (traced.written_or_missed single (o := o) (n := n) rfl).1
  refine ⟨fun o n k e at_k v read onStack => ?_, fun defines o es v misses i among => ?_,
    fun unread o n k e at_k v read onStack => ?_⟩
  · obtain ⟨_, -, -, ends⟩ := either o n k e at_k
    exact ends v read onStack
  · exact traced.unread_of_missed single defines misses among
  · obtain ⟨i, among, same, ends⟩ := either o n k e at_k
    refine (ends v read onStack).resolve_right fun misses => ?_
    exact unread o _ v misses i among (same ▸ read)

namespace Sample

open FlowGraph

theorem either_defines : eitherLifted.DefinesBeforeUse := by
  refine (Setting.slots_written_or_missed rfl .start either_interpreted rfl).2.2 ?_
  rintro o es v ⟨n, before, ahead, l, frame, -, -, lands, at_l, held, -⟩
  have code : eitherLifted.code.instructions = [pushes 0 1, pushes 1 2, .branch (equals 0 1) 7,
      pushes 2 3, pushes 3 4, .branch (equals 2 3) 7, .ret [], .label 7, .ret []] := by cbv
  obtain rfl : l = 7 := by
    by_contra other
    rw [code] at lands
    simp [behind, pushes, Instruction.anchor?, Ne.symm other] at lands
  have empty : ((((setting either).context 0 either).frameAt? (setting either).table 7).any
      fun frame => frame.stack.isEmpty) = true := by decide +kernel
  rw [at_l, Option.any_some, List.isEmpty_iff] at empty
  simp [empty] at held

/-- A branch between the push of a number and its store. -/
def landing : Script :=
  .ofLines [.pushInt 1, .pushInt 2, .jump .branchEquals 4, .pushInt 5, .op .setVar (.int 3),
    .op .ret (.int 0)]

def landingLifted : Function :=
  ⟨0, [], Lift.anchored [pushes 0 1, pushes 1 2, .branch (equals 0 1) 4, pushes 2 5, stores,
    .ret []], []⟩

/-- If the numbers are equal, the third slot is stored without a value. -/
theorem landing_misses : ((setting landing).interpret 0 .start).1 = .ok landingLifted ∧
    landingLifted.path ⟨fun _ => true, fun _ => 0⟩ 5 =
      ([.executes (pushes 0 1), .executes (pushes 1 2), .tests (equals 0 1), .executes stores,
        .executes (.ret [])], none) ∧
    ¬ landingLifted.DefinesBeforeUse := by
  have path : landingLifted.path ⟨fun _ => true, fun _ => 0⟩ 5 =
      ([.executes (pushes 0 1), .executes (pushes 1 2), .tests (equals 0 1), .executes stores,
        .executes (.ret [])], none) := by cbv
  refine ⟨Setting.interpret_eq (by decide +kernel), path, fun defines => ?_⟩
  have early := defines ⟨fun _ => true, fun _ => 0⟩ 5 3 (.executes stores) (by rw [path]; rfl)
    (.stack 0 2 .int) (by decide) rfl
  rw [path] at early
  revert early
  decide

end Sample

end ClientScript
