import ClientScript.Proofs.Lift.PlainCommands
import ClientScript.Proofs.Lift.Trace

/-!
Scripts that both revisions know. The commands that the revisions share are the same, and what the
current one has a family for the legacy one has a plain signature for. So where the current revision
lifts a script that calls nothing, the legacy one does too, with the same outlines.
-/
namespace ClientScript

open Opcode

/-- An opcode at a position of a script has a rule in both revisions, which calls no script and
    registers no handler, and if it discards, its operand is zero. -/
structure Script.PortableAt (code : Script) (pc : Nat) (opcode : Opcode) : Prop where
  current : (Table.ofFormat .current).contains opcode
  legacy : (Table.ofFormat .legacy).contains opcode
  calls : opcode ≠ gosubWithParams
  hooks : opcode ∉ Table.hookSetters ccSetOnVarcStrTransmit
  discards : opcode = popIntDiscard ∨ opcode = popStringDiscard →
    code.operands[pc]? = some (.int 0)

def Script.Portable (code : Script) : Prop :=
  ∀ pc opcode, code.opcodes[pc]? = some opcode → code.PortableAt pc opcode

namespace Script

instance (code : Script) (pc : Nat) (opcode : Opcode) : Decidable (code.PortableAt pc opcode) :=
  decidable_of_iff ((Table.ofFormat .current).contains opcode ∧
      (Table.ofFormat .legacy).contains opcode ∧ opcode ≠ gosubWithParams ∧
      opcode ∉ Table.hookSetters ccSetOnVarcStrTransmit ∧
      (opcode = popIntDiscard ∨ opcode = popStringDiscard →
        code.operands[pc]? = some (.int 0)))
    ⟨fun ⟨current, legacy, calls, hooks, discards⟩ => ⟨current, legacy, calls, hooks, discards⟩,
      fun ⟨current, legacy, calls, hooks, discards⟩ => ⟨current, legacy, calls, hooks, discards⟩⟩

theorem portable_iff {code : Script} : code.Portable ↔
    ∀ pc : Fin code.opcodes.length, code.PortableAt pc code.opcodes[pc] := by
  constructor
  · exact fun portable pc => portable pc _ (List.getElem?_eq_getElem pc.2)
  · intro all pc opcode found
    obtain ⟨inside, rfl⟩ := List.getElem?_eq_some_iff.1 found
    exact all ⟨pc, inside⟩

instance (code : Script) : Decidable code.Portable := decidable_of_iff _ portable_iff.symm

end Script

def Command.isDiscard : Command → Bool
  | .discard _ => true
  | _ => false

def Command.isAlone : Command → Bool
  | .switch | .goto | .branchCompare | .ret | .enum | .constant _ | .joinString | .basic _
  | .param _ => true
  | _ => false

/-- The command of the legacy revision for what is a command of the current one. -/
inductive Relaxes (opcode : Opcode) : Command → Command → Prop where
  | same {c : Command} (alone : c.isAlone) : Relaxes opcode c c
  | plain {c : Command} {s : Signature} (plain : c.plain? opcode = some s) :
      Relaxes opcode c (.basic s)

theorem relaxes_iff {opcode : Opcode} {c c' : Command} : Relaxes opcode c c' ↔
    c.isAlone ∧ c = c' ∨ (c.plain? opcode).map .basic = some c' := by
  constructor
  · rintro (alone | plain)
    · exact .inl ⟨alone, rfl⟩
    · exact .inr (by rw [plain]; rfl)
  · rintro (⟨alone, rfl⟩ | plain)
    · exact .same alone
    · obtain ⟨s, written, rfl⟩ := Option.map_eq_some_iff.1 plain
      exact .plain written

instance (opcode : Opcode) (c c' : Command) : Decidable (Relaxes opcode c c') :=
  decidable_of_iff _ relaxes_iff.symm

namespace Table

theorem mem_of_lookup? {t : Table} {opcode : Opcode} {c : Command}
    (found : t.lookup? opcode = some c) : (opcode, c) ∈ t.rules := by
  obtain ⟨r, first, rfl⟩ := Option.map_eq_some_iff.1 found
  have same : (r.1 == opcode) = true :=
    List.find?_some (p := fun r : Opcode × Command => r.1 == opcode) first
  rw [← eq_of_beq same]
  exact List.mem_of_find?_eq_some first

theorem relaxes_of_rule : ∀ r ∈ (ofFormat .legacy).rules, r.1 ≠ gosubWithParams →
    r.1 ∉ hookSetters ccSetOnVarcStrTransmit → ∀ c ∈ (ofFormat .current).lookup? r.1,
    Relaxes r.1 c r.2 := by
  decide +kernel

theorem discard_of_rule : ∀ r ∈ (ofFormat .current).rules, r.2.isDiscard →
    r.1 = popIntDiscard ∨ r.1 = popStringDiscard := by
  decide +kernel

theorem relaxes_of_lookup? {opcode : Opcode} {c c' : Command}
    (current : (ofFormat .current).lookup? opcode = some c)
    (legacy : (ofFormat .legacy).lookup? opcode = some c')
    (calls : opcode ≠ gosubWithParams) (hooks : opcode ∉ hookSetters ccSetOnVarcStrTransmit) :
    Relaxes opcode c c' :=
  relaxes_of_rule _ (mem_of_lookup? legacy) calls hooks c current

end Table

namespace Lift

variable {ctx : Context} {names : Readings} {f : Frame} {opcode : Opcode} {c c' : Command}

theorem tracks_alone (alone : c.isAlone) :
    Tracks ctx names (command ctx opcode c) (command ctx opcode c) Alike := by
  cases c with
  | switch => exact tracks_switch
  | goto => exact tracks_goto
  | branchCompare => exact tracks_branchCompare opcode
  | ret => exact tracks_ret
  | enum => exact tracks_enum opcode
  | constant type => exact tracks_constant type
  | joinString => exact tracks_joinString
  | basic s => exact tracks_basic s
  | param receiver => exact tracks_param opcode receiver
  | _ => simp [Command.isAlone] at alone

theorem tracksFrom_plain {s : Signature} (plain : c.plain? opcode = some s)
    (dropped : c.isDiscard → ctx.code.operands[f.pc]? = some (.int 0)) :
    TracksFrom ctx names f (command ctx opcode c) (basic ctx s) Alike := by
  cases c with
  | load storage =>
    obtain rfl := Option.some.inj plain
    exact tracksFrom_of_plainly (still_load storage) fun _ _ h =>
      plainly_load (Prototype.isPlain_plain _) (Prototype.stack_plain _) h
  | store storage =>
    obtain rfl := Option.some.inj plain
    exact tracksFrom_of_plainly (still_store storage) fun _ _ h =>
      plainly_store (Prototype.isPlain_plain _) (Prototype.stack_plain _) h
  | discard type =>
    obtain rfl := Option.some.inj plain
    exact tracksFrom_of_plainly (still_discard type) fun _ _ h =>
      plainly_discard (Prototype.isPlain_plain _) (Prototype.stack_plain _) (dropped rfl) h
  | defineArray =>
    obtain rfl := Option.some.inj plain
    exact tracksFrom_of_plainly still_defineArray fun _ _ h => plainly_defineArray h
  | pushArrayInt =>
    obtain rfl := Option.some.inj plain
    exact tracksFrom_of_plainly still_pushArrayInt fun _ _ h => plainly_pushArrayInt h
  | popArrayInt =>
    obtain rfl := Option.some.inj plain
    exact tracksFrom_of_plainly still_popArrayInt fun _ _ h => plainly_popArrayInt h
  | _ => simp [Command.plain?] at plain

theorem tracksFrom_command (relaxes : Relaxes opcode c c')
    (dropped : c.isDiscard → ctx.code.operands[f.pc]? = some (.int 0)) :
    TracksFrom ctx names f (command ctx opcode c) (command ctx opcode c') Alike := by
  cases relaxes with
  | same alone => exact tracks_alone alone f
  | plain written => exact tracksFrom_plain written dropped

variable {pc : Nat} {opcodes : List Opcode}

theorem exists_relaxes (portable : ctx.code.PortableAt pc opcode) : ∃ c c',
    (Table.ofFormat .current).lookup? opcode = some c ∧
    (Table.ofFormat .legacy).lookup? opcode = some c' ∧ Relaxes opcode c c' ∧
    (c.isDiscard → ctx.code.operands[pc]? = some (.int 0)) := by
  obtain ⟨c, current⟩ := Option.isSome_iff_exists.1 portable.current
  obtain ⟨c', legacy⟩ := Option.isSome_iff_exists.1 portable.legacy
  refine ⟨c, c', current, legacy,
    Table.relaxes_of_lookup? current legacy portable.calls portable.hooks, fun drops => ?_⟩
  exact portable.discards (Table.discard_of_rule _ (Table.mem_of_lookup? current) drops)

theorem tracksFrom_position (portable : ctx.code.PortableAt f.pc opcode) :
    TracksFrom ctx names f (position ctx (.ofFormat .current) opcode)
      (position ctx (.ofFormat .legacy) opcode) Alike := by
  obtain ⟨c, c', current, legacy, relaxes, dropped⟩ := exists_relaxes portable
  simp only [position, current, legacy]
  refine (tracksFrom_command relaxes dropped).bind fun _ _ i j same => ?_
  refine tracks_get fun f g _ stack => ?_
  rw [stack, ← Instruction.isTerminal_eq same]
  split
  · exact tracks_of_not not_comes_imbalance
  · exact tracks_pure fun _ _ => same

theorem tracks_positions
    (portable : ∀ k opcode, opcodes[k]? = some opcode → ctx.code.PortableAt (pc + k) opcode) :
    Tracks ctx names (positions ctx (.ofFormat .current) pc opcodes)
      (positions ctx (.ofFormat .legacy) pc opcodes) fun _ is js =>
        js.map Instruction.outline = is.map Instruction.outline := by
  induction opcodes generalizing pc names with
  | nil => exact tracks_pure fun _ _ => rfl
  | cons opcode rest ih =>
    have later : ∀ k opcode, rest[k]? = some opcode →
        ctx.code.PortableAt (pc + 1 + k) opcode := by
      intro k opcode found
      rw [Nat.add_assoc, Nat.add_comm 1]
      exact portable (k + 1) opcode found
    refine tracks_seek fun f here => ?_
    have first : ctx.code.PortableAt f.pc opcode := here ▸ portable 0 opcode rfl
    refine (tracksFrom_position first).bind fun _ _ i j same => ?_
    refine tracks_bind (ih later) fun _ _ is js all => tracks_pure fun _ _ => ?_
    rw [List.map_cons, List.map_cons, same, all]

theorem tracks_function (portable : ctx.code.Portable) :
    Tracks ctx names (function ctx (.ofFormat .current)) (function ctx (.ofFormat .legacy))
      fun _ F F' => F'.code.instructions.map Instruction.outline =
        F.code.instructions.map Instruction.outline := by
  refine tracks_bind (tracks_positions fun k opcode found => ?_) fun _ _ is js same => ?_
  · rw [Nat.zero_add]
    exact portable k opcode found
  have count : js.length = is.length := by simpa using congrArg List.length same
  refine tracks_get fun f g _ stack => ?_
  rw [stack, jumpTargets_eq same, count]
  split
  · exact tracks_of_not not_comes_imbalance
  split
  · exact tracks_of_not not_comes_malformed
  exact tracks_bind (tracks_typedAll _) fun _ _ _ _ _ => tracks_pure fun _ _ =>
    outlines_anchored same

end Lift

end ClientScript
