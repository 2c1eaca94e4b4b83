import ClientScript.Command
import ClientScript.Lift.Frame

/-!
Hook setters. The stack holds the handler, its arguments, an optional transmit list with its
count, a descriptor with one character per argument (then `Y` for a transmit list), and for an
interface-level setter the component.
-/
namespace ClientScript.Lift

variable (ctx : Context)

def pointer (v : Variable) : Lift Expr := do
  let _ ← typed v
  return .pointer v

def transmitted (transmit : Transmit) : Lift Expr := do
  match transmit with
  | .none => defect ctx .noTransmitList
  | .untyped => return slotExpr ctx (← pop ctx .int)
  | .stat => popAs ctx .stat
  | .inv => popAs ctx .inv
  | .varp => pointer (.varp (← popInt ctx))
  | .varcInt => pointer (.varcInt (← popInt ctx))
  | .varcString => pointer (.varcString (← popInt ctx))

def transmitList (transmit : Transmit) : Nat → Lift (List Expr)
  | 0 => return []
  | n + 1 => do
    let last ← transmitted ctx transmit
    return (← transmitList transmit n) ++ [last]

def describedTypes : List Char → Lift (List ValueType)
  | [] => return []
  | c :: rest => do
    match ValueType.ofDescriptor? c with
    | none => defect ctx (.unknownDescriptor c)
    | some t => return t :: (← describedTypes rest)

/-- Pop a handler's arguments, last one first; a constant may stand for an event property. -/
def handlerArguments : List ValueType → Lift (List Expr)
  | [] => return []
  | t :: rest => do
    let after ← handlerArguments rest
    let property := (← peek 0).bind EventProperty.ofValue?
    let slot ← pop ctx t.stack
    match property with
    | some p => return .event p :: after
    | none => return slotExpr ctx slot :: after

def joinParameters : List (Variable × ValueType × Expr) → Lift Unit
  | [] => return ()
  | (parameter, described, argument) :: rest => do
    emit (.freeze (.ofVariable parameter) described)
    match argument with
    | .var _ typing => unify typing (.ofVariable parameter)
    | _ => pure ()
    joinParameters rest

/-- Register a handler unless its number is negative, which clears the hook. -/
def register (handler : Int32) (types : List ValueType) (args : List Expr) :
    Lift Unit := do
  if 0 ≤ handler.toInt then
    let parameters := Variable.parameters handler (types.map ValueType.stack)
    let _ ← parameters.mapM typed
    joinParameters (parameters.zip (types.zip args))
    emit (.record handler .clientScript)

/-- The component of an interface-level setter, else the component-relative mark. -/
def hookTarget (opcode : Opcode) : Lift (Option Expr × Bool) := do
  if Opcode.ifSetOnClick ≤ opcode then return (some (← popAs ctx .component), false)
  else return (none, (← intOperand ctx) != 0)

def hook (opcode : Opcode) (transmit : Transmit) : Lift Instruction := do
  let (component, dot) ← hookTarget ctx opcode
  let descriptor := (← popText ctx).toList
  let listed := descriptor.getLast? == some 'Y'
  let triggers ←
    if listed then do
      let count ← popInt ctx
      transmitList ctx transmit count.toInt.toNat
    else pure []
  let types ← describedTypes ctx (if listed then descriptor.dropLast else descriptor)
  let args ← handlerArguments ctx types
  let handler ← popInt ctx
  register handler types args
  return .assign [] (.hook opcode handler args triggers dot component)

end ClientScript.Lift
