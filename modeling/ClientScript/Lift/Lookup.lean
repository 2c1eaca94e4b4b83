import ClientScript.Lift.Frame

/-!
Lookups whose types depend on constants on the stack or on declarations: enums, parameters,
database fields and local arrays.
-/
namespace ClientScript.Lift

variable (ctx : Context)

/-- The type that the constant `depth` slots below the top is the tag of. -/
def typeTag (depth : Nat) : Lift ValueType := do
  let tag ← peekInt ctx depth
  let tagged := if 0 ≤ tag.toInt then ValueType.ofDescriptorByte? tag.toInt.toNat else none
  match tagged with
  | some t => return t
  | none => defect ctx (.notTypeTag tag)

def enumKey (key : Slot) : Lift Expr := do
  let keyType ← typeTag ctx 0
  let typing ← pinned ctx (.of keyType)
  unify (slotType ctx key) typing
  popAs ctx .typeTag

def enum (opcode : Opcode) : Lift Instruction := do
  let key ← pop ctx .int
  let id ← popAs ctx .enum
  let valueType ← typeTag ctx 0
  let valueTag ← popAs ctx .typeTag
  let keyTag ← enumKey ctx key
  let typing ← pinned ctx (.of valueType)
  define ctx opcode [keyTag, valueTag, id, slotExpr ctx key] valueType.stack typing

def enumHasOutput (opcode : Opcode) : Lift Instruction := do
  let key ← pop ctx .int
  let id ← popAs ctx .enum
  let keyTag ← enumKey ctx key
  let typing ← pinned ctx .boolean
  define ctx opcode [keyTag, id, slotExpr ctx key] .int typing

def param (opcode : Opcode) (receiver : Prototype) : Lift Instruction := do
  let id ← peekInt ctx 0
  match ctx.declarations.params.get? id with
  | none => throw (.missingPrototype id)
  | some declared =>
    let key ← popAs ctx .param
    let holder ← popAs ctx receiver
    let typing ← pinned ctx declared
    define ctx opcode [holder, key] declared.stack typing

def dbGetField (opcode : Opcode) : Lift Instruction := do
  let id ← peekInt ctx 1
  match ctx.declarations.columns.get? id with
  | none => throw (.missingPrototype id)
  | some fields =>
    let tuple ← popAs ctx .int
    let column ← popAs ctx .dbcolumn
    let row ← popAs ctx .dbrow
    let typings ← fields.mapM (pinned ctx)
    let slots ← pushAll ctx (fields.map Prototype.stack)
    unifyAll ((slots.map (slotType ctx)).zip typings)
    return .assign (slots.map (slotExpr ctx))
      (.op opcode [row, column, tuple] (fields.map Prototype.stack) typings false)

def array (index : Int32) : Lift Expr := do
  if 0 ≤ index.toInt then reference (.array ctx.script index.toInt.toNat)
  else malformed ctx (.negativeArrayIndex index)

/-- The operand packs the array number above the descriptor byte of the element type. -/
def defineArray (opcode : Opcode) : Lift Instruction := do
  let packed ← intOperand ctx
  let length ← popAs ctx .length
  let elements ← array ctx (packed >>> 16)
  let byte := (packed.toInt % 256).toNat
  match ValueType.ofDescriptorByte? byte with
  | none => defect ctx (.unknownElementType byte)
  | some elementType =>
    elements.typings.forM fun t => emit (.freeze t elementType)
    return .assign [] (.op opcode [elements, length] [] [] false)

def pushArrayInt (opcode : Opcode) : Lift Instruction := do
  let index ← popAs ctx .index
  let elements ← array ctx (← intOperand ctx)
  let typing ← nameless ctx .int []
  elements.typings.forM fun t => unify t typing
  define ctx opcode [elements, index] .int typing

def popArrayInt (opcode : Opcode) : Lift Instruction := do
  let value ← pop ctx .int
  let index ← popAs ctx .index
  let elements ← array ctx (← intOperand ctx)
  elements.typings.forM fun t => unify (slotType ctx value) t
  return .assign [] (.op opcode [elements, index, slotExpr ctx value] [] [] false)

end ClientScript.Lift
