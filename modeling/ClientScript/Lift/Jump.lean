import ClientScript.Lift.Frame

/-!
Jumps and returns. A return takes the whole stack, which must be what the script declares.
-/
namespace ClientScript.Lift

variable (ctx : Context)

def switchTable : Lift (IntMap Int32) := do
  let index ← intOperand ctx
  let table := if 0 ≤ index.toInt then ctx.code.switches[index.toInt.toNat]? else none
  match table with
  | some t => return t
  | none => defect ctx (.noSwitchTable index)

def caseLabels : List (Int32 × Int32) → Lift (List (Int32 × Label))
  | [] => return []
  | (value, offset) :: rest => do
    let label ← jump ctx offset
    return (value, label) :: (← caseLabels rest)

def switch : Lift Instruction := do
  let slot ← pop ctx .int
  let table ← switchTable ctx
  let cases ← caseLabels ctx table.entries
  return .switch (slotExpr ctx slot) (IntMap.ofList cases)

def goto : Lift Instruction := do
  return .goto (← jump ctx (← intOperand ctx))

def branchCompare (opcode : Opcode) : Lift Instruction := do
  let target ← jump ctx (← intOperand ctx)
  let right ← pop ctx .int
  let left ← pop ctx .int
  unify (slotType ctx left) (slotType ctx right)
  return .branch (.op opcode [slotExpr ctx left, slotExpr ctx right] [] [] false) target

def resultTypes (script : Int32) (types : List StackType) : List TypeVar :=
  (List.range types.length).map (.ofResult script)

def ret : Lift Instruction := do
  let slots ← popAll
  let types := slots.map Slot.type
  if types = ctx.code.returns then
    emit (.results ctx.script types)
    unifyAll ((resultTypes ctx.script types).zip (slots.map (slotType ctx)))
    return .ret (slots.map (slotExpr ctx))
  else imbalance ctx (.returned types ctx.code.returns)

end ClientScript.Lift
