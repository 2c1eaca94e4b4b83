import ClientScript.Command.Table
import ClientScript.Function
import ClientScript.Lift.Call
import ClientScript.Lift.Declared
import ClientScript.Lift.Hook
import ClientScript.Lift.Lookup
import ClientScript.Lift.Move

/-!
Lifting of a whole script: one instruction per position, in order, then a label in front of
every jump target. Jumps and returns find the stack empty once they have taken what is theirs.
-/
namespace ClientScript

namespace Lift

variable (ctx : Context)

def command (opcode : Opcode) : Command → Lift Instruction
  | .switch => switch ctx
  | .goto => goto ctx
  | .branchCompare => branchCompare ctx opcode
  | .ret => ret ctx
  | .proc => proc ctx opcode
  | .invoke => invoke ctx opcode
  | .enum => enum ctx opcode
  | .enumHasOutput => enumHasOutput ctx opcode
  | .defineArray => defineArray ctx opcode
  | .pushArrayInt => pushArrayInt ctx opcode
  | .popArrayInt => popArrayInt ctx opcode
  | .discard type => discard ctx type
  | .constant type => constant ctx type
  | .load storage => load ctx storage
  | .store storage => store ctx storage
  | .joinString => joinString ctx
  | .basic signature => basic ctx signature
  | .hook transmit => hook ctx opcode transmit
  | .param receiver => param ctx opcode receiver
  | .dbGetField => dbGetField ctx opcode

def position (table : Table) (opcode : Opcode) : Lift Instruction := do
  match table.lookup? opcode with
  | none => throw (.unknownOpcode ctx.script (← get).pc opcode)
  | some c =>
    let insn ← command ctx opcode c
    let f ← get
    if insn.isTerminal && !f.stack.isEmpty then
      imbalance ctx (.valuesLeft f.stack.length insn)
    else return insn

def positions (table : Table) : Nat → List Opcode → Lift (List Instruction)
  | _, [] => return []
  | pc, opcode :: rest => do
    modify fun f => { f with pc := pc }
    let insn ← position ctx table opcode
    return insn :: (← positions table (pc + 1) rest)

def jumpTargets (insns : List Instruction) : List Label := insns.flatMap Instruction.targets

/-- The instructions with a label in front of every target. The instruction of position `pc` is
    number `pc` of the chain, so that is what its label goes in front of. -/
def anchored (insns : List Instruction) : Chain :=
  let targets := jumpTargets insns
  let anchors := (List.range insns.length).filter fun l => targets.contains l
  anchors.foldl (fun c l => (c.insertBefore? l (.label l)).getD c) (Chain.ofList insns)

def function (table : Table) : Lift Function := do
  let insns ← positions ctx table 0 ctx.code.opcodes
  if !(← get).stack.isEmpty then imbalance ctx .valuesAtEnd
  else
    match ((jumpTargets insns).filter fun l => insns.length ≤ l).min? with
    | some l => malformed ctx (.jumpPastEnd l)
    | none =>
      let arguments := Variable.parameters ctx.script ctx.code.arguments
      let _ ← arguments.mapM typed
      return ⟨ctx.script, arguments, anchored insns, ctx.code.returns⟩

end Lift

/-- What the lifting of a script comes to: the effects it asks for, in order, and its typed
    code or its own failure. -/
structure Lifted where
  effects : List Effect
  result : Except Failure Function

def Context.lift (ctx : Context) (table : Table) : Lifted :=
  match (Lift.function ctx table).run.run Frame.start with
  | (result, frame) => ⟨frame.effects, result⟩

end ClientScript
