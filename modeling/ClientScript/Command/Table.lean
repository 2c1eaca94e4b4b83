import ClientScript.Command.Catalogue
import ClientScript.Script

/-!
Command tables: one command per opcode and bytecode revision. The revisions share opcode numbers
and the commands of `Table.shared`.
-/
namespace ClientScript

structure Table where
  format : Format
  rules : List (Opcode × Command)

namespace Table

open Opcode

/-- The hook setters from the first one to `last`, component-relative and interface-level. The
    fourteenth number was never given out. -/
def hookSetters (last : Opcode) : List Opcode :=
  (List.range (last - ccSetOnClick).toNat.succ).flatMap fun i =>
    if i = 13 then []
    else [ccSetOnClick + UInt16.ofNat i, ifSetOnClick + UInt16.ofNat i]

def transmit (opcode : Opcode) : Transmit :=
  let cc := opcode % interfaceOffset + interfaceOffset
  if cc = ccSetOnVarTransmit then .varp
  else if cc = ccSetOnInvTransmit then .inv
  else if cc = ccSetOnStatTransmit then .stat
  else if cc = ccSetOnVarcTransmit then .varcInt
  else if cc = ccSetOnVarcStrTransmit then .varcString
  else .none

def declarative (signatures : List Signature) : List (Opcode × Command) :=
  signatures.map fun s => (s.opcode, .basic s)

def shared : List (Opcode × Command) :=
  [(Opcode.switch, .switch), (branch, .goto), (branchNot, .branchCompare),
   (branchEquals, .branchCompare), (branchLessThan, .branchCompare),
   (branchGreaterThan, .branchCompare), (branchLessThanOrEquals, .branchCompare),
   (branchGreaterThanOrEquals, .branchCompare), (Opcode.ret, .ret), (Opcode.enum, .enum),
   (Opcode.joinString, .joinString), (pushConstantInt, .constant .int),
   (pushConstantString, .constant .string), (ncParam, .param .npc), (lcParam, .param .loc),
   (ocParam, .param .obj), (structParam, .param .struct)] ++
  declarative Signature.shared

def currentOnly : List (Opcode × Command) :=
  [(gosubWithParams, .proc), (Opcode.enumHasOutput, .enumHasOutput),
   (Opcode.defineArray, .defineArray), (Opcode.pushArrayInt, .pushArrayInt),
   (Opcode.popArrayInt, .popArrayInt), (popIntDiscard, .discard .int),
   (popStringDiscard, .discard .string), (Opcode.dbGetField, .dbGetField),
   (mecParam, .param .mapelement), (getVar, .load .varp), (getVarbit, .load .varbit),
   (pushIntLocal, .load .intLocal), (pushStringLocal, .load .stringLocal),
   (getVarcInt, .load .varcInt), (getVarcString, .load .varcString), (setVar, .store .varp),
   (setVarbit, .store .varbit), (popIntLocal, .store .intLocal),
   (popStringLocal, .store .stringLocal), (setVarcInt, .store .varcInt),
   (setVarcString, .store .varcString)] ++
  declarative Signature.currentOnly ++
  (hookSetters ccSetOnVarcStrTransmit).map fun op => (op, .hook (transmit op))

def legacyOnly : List (Opcode × Command) :=
  (gosubWithParams, .invoke) :: declarative Signature.legacyOnly ++
  (hookSetters ccSetOnResize).map fun op => (op, .hook .untyped)

def ofFormat : Format → Table
  | .current => ⟨.current, shared ++ currentOnly⟩
  | .legacy => ⟨.legacy, shared ++ legacyOnly⟩

def lookup? (t : Table) (opcode : Opcode) : Option Command :=
  (t.rules.find? fun r => r.1 == opcode).map (·.2)

def contains (t : Table) (opcode : Opcode) : Bool := (t.lookup? opcode).isSome

def size (t : Table) : Nat := t.rules.length

end Table

end ClientScript
