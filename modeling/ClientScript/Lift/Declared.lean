import ClientScript.Command
import ClientScript.Lift.Frame

/-!
Declarative commands. The arguments on the stack are popped first, then every argument and every
result is pinned to the type its signature declares.
-/
namespace ClientScript.Lift

variable (ctx : Context)

inductive Input where
  | slot (s : Slot)
  | operand
  | localVar

/-- Find the arguments of a signature; those on the stack are popped, last one first. -/
def inputs : List (Prototype × Source) → Lift (List (Prototype × Input))
  | [] => return []
  | (p, source) :: rest => do
    let found ← inputs rest
    match source with
    | .stack => return (p, .slot (← pop ctx p.stack)) :: found
    | .operand => return (p, .operand) :: found
    | .localVar => return (p, .localVar) :: found

def operandLocal (type : StackType) : Lift Variable := do
  let index ← intOperand ctx
  if 0 ≤ index.toInt then return .localVar ctx.script index.toInt.toNat type
  else defect ctx .negativeLocal

def argument (operand : Value) (p : Prototype) (input : Input) : Lift Expr := do
  let expected ← pinned ctx p
  match input with
  | .slot s =>
    unify (slotType ctx s) expected
    return slotExpr ctx s
  | .operand =>
    if operand.stack = p.stack then return .const operand expected
    else defect ctx (.operandNotA operand p)
  | .localVar =>
    let v ← operandLocal ctx p.stack
    let typing ← typed v
    unify typing expected
    return .var v typing

def arguments (operand : Value) : List (Prototype × Input) → Lift (List Expr)
  | [] => return []
  | (p, input) :: rest => do
    let e ← argument ctx operand p input
    return e :: (← arguments operand rest)

def result (p : Prototype) (destination : Destination) : Lift (Variable × TypeVar) := do
  match destination with
  | .stack =>
    let slot ← push ctx p.stack none
    return (slotVariable ctx slot, slotType ctx slot)
  | .localVar =>
    let v ← operandLocal ctx p.stack
    return (v, ← typed v)

def results : List (Prototype × Destination) → Lift (List (Variable × TypeVar))
  | [] => return []
  | (p, destination) :: rest => do
    let r ← result ctx p destination
    return r :: (← results rest)

def basic (s : Signature) : Lift Instruction := do
  let value ← operand ctx
  if !s.usesOperand && ctx.checkOperands && value != .int 0 then
    defect ctx (.operandTaken s.opcode value)
  else
    let found ← inputs ctx s.args
    let args ← arguments ctx value found
    let typings ← s.defs.mapM fun d => pinned ctx d.1
    let definitions ← results ctx s.defs
    unifyAll ((definitions.map (·.2)).zip typings)
    return .assign (definitions.map fun d => .var d.1 d.2)
      (.op s.opcode args (s.defs.map (·.1.stack)) typings (s.dot && value != .int 0))

end ClientScript.Lift
