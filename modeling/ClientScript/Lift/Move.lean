import ClientScript.Command
import ClientScript.Lift.Frame

/-!
Moving data: constants, variables, discards and joined strings. Each becomes one assignment whose
two sides share a type.
-/
namespace ClientScript.Lift

variable (ctx : Context)

def constant (type : StackType) : Lift Instruction := do
  let value ← operand ctx
  if value.stack = type then
    let typing ← nameless ctx type []
    let slot ← push ctx type (some value)
    unify (slotType ctx slot) typing
    return .assign [slotExpr ctx slot] (.const value typing)
  else defect ctx (.constantNotA value type)

def stored (storage : Storage) : Lift Variable := do
  match storage.member? ctx.script (← intOperand ctx) with
  | some v => return v
  | none => malformed ctx .negativeLocalIndex

def load (storage : Storage) : Lift Instruction := do
  let v ← stored ctx storage
  let typing ← typed v
  let slot ← push ctx storage.stack none
  unify (slotType ctx slot) typing
  return .assign [slotExpr ctx slot] (.var v typing)

def store (storage : Storage) : Lift Instruction := do
  let v ← stored ctx storage
  let slot ← pop ctx storage.stack
  let typing ← typed v
  unify typing (slotType ctx slot)
  return .assign [.var v typing] (slotExpr ctx slot)

def discard (type : StackType) : Lift Instruction := do
  let slot ← pop ctx type
  return .assign [] (slotExpr ctx slot)

def joinString : Lift Instruction := do
  let count ← intOperand ctx
  if count.toInt < 0 then malformed ctx .negativeJoinCount
  else
    let parts ← popStrings ctx count.toInt.toNat
    let typing ← nameless ctx .string []
    define ctx .joinString (parts.map (slotExpr ctx)) .string typing

end ClientScript.Lift
