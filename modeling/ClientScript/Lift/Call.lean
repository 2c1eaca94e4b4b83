import ClientScript.Lift.Jump

/-!
Calls. A callee takes and gives what it declares, whether or not it has been lifted yet; it
is entered before its arguments are popped. Both kinds of values share one stack, so arguments
are popped by total count and must agree with the callee's declaration kind by kind.
-/
namespace ClientScript.Lift

variable (ctx : Context)

/-- The callee, which is entered first. A callee that is not in progress comes to a function then;
    its shape need not be read off that, for it is the declared one
    (`Setting.shape_of_interpretAt`). -/
def callee (id : Int32) : Lift Script := do
  match ctx.scripts.get? id with
  | none => throw (.missingCallee ctx.script id)
  | some s =>
    emit (.enter id)
    return s

def sameKinds (a b : List StackType) : Bool :=
  a.count .int == b.count .int && a.count .string == b.count .string

/-- Pop the arguments of a callee and push its results; `before` are arguments that are not on
    the stack. -/
def apply (opcode : Opcode) (id : Int32) (shape : Script) (before : List Expr) :
    Lift Instruction := do
  let popped ← popMany ctx shape.arguments.length
  let types := popped.map Slot.type
  if sameKinds types shape.arguments then
    let parameters ← (Variable.parameters id types).mapM typed
    unifyAll (parameters.zip (popped.map (slotType ctx)))
    emit (.results id shape.returns)
    let slots ← pushAll ctx shape.returns
    let typings := resultTypes id shape.returns
    unifyAll ((slots.map (slotType ctx)).zip typings)
    return .assign (slots.map (slotExpr ctx))
      (.call opcode id (before ++ popped.map (slotExpr ctx)) shape.returns typings)
  else imbalance ctx (.called id shape.arguments types)

def proc (opcode : Opcode) : Lift Instruction := do
  let id ← intOperand ctx
  let shape ← callee ctx id
  emit (.record id .proc)
  apply ctx opcode id shape []

/-- A legacy invocation: as a call, with the callee as an extra first argument. -/
def invoke (opcode : Opcode) : Lift Instruction := do
  let id ← intOperand ctx
  let shape ← callee ctx id
  emit (.record id .clientScript)
  let typing ← nameless ctx .int []
  apply ctx opcode id shape [.const (.int id) typing]

end ClientScript.Lift
