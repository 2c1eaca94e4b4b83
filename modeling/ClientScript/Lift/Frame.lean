import ClientScript.Effect
import ClientScript.Failure
import ClientScript.Script.Corpus

/-!
The frame a script is lifted in: an abstract operand stack whose slots stand for values, and
the effects asked for so far. A slot pushed by a constant remembers the constant. A failure
leaves the effects that came before it in place.
-/
namespace ClientScript

structure Context where
  script : Int32
  code : Script
  scripts : Corpus
  declarations : Declarations
  checkOperands : Bool

structure Slot where
  id : Nat
  type : StackType
  constant : Option Value

structure Frame where
  pc : Nat
  /-- The top comes first. -/
  stack : List Slot
  nextSlot : Nat
  nextValue : Nat
  effects : List Effect

def Frame.start : Frame := ⟨0, [], 0, 0, []⟩

abbrev Lift (α : Type) := ExceptT Failure (StateM Frame) α

namespace Lift

variable (ctx : Context)

def emit (e : Effect) : Lift Unit :=
  modify fun f => { f with effects := f.effects ++ [e] }

def unify (a b : TypeVar) : Lift Unit := emit (.unify a b)

def unifyAll : List (TypeVar × TypeVar) → Lift Unit
  | [] => pure ()
  | (a, b) :: rest => do
    unify a b
    unifyAll rest

def imbalance {α : Type} (cause : Imbalance) : Lift α := do
  throw (.stackImbalance ctx.script (← get).pc cause)

def malformed {α : Type} (cause : Malformation) : Lift α :=
  throw (.malformed ctx.script cause)

def defect {α : Type} (d : Defect) : Lift α := do
  malformed ctx (.atPosition (← get).pc d)

def slotVariable (s : Slot) : Variable := .stack ctx.script s.id s.type

def slotType (s : Slot) : TypeVar := .ofVariable (slotVariable ctx s)

def slotExpr (s : Slot) : Expr := .var (slotVariable ctx s) (slotType ctx s)

def nameless (stack : StackType) (types : List ValueType) : Lift TypeVar := do
  let f ← get
  let t := .ofValue ctx.script f.nextValue
  set { f with nextValue := f.nextValue + 1 }
  emit (.declare t stack types)
  return t

def pinned (p : Prototype) : Lift TypeVar := nameless ctx p.stack [p.type]

/-- The type variable of a variable, which exists from now on. -/
def typed (v : Variable) : Lift TypeVar := do
  emit (.declare (.ofVariable v) v.type [])
  return .ofVariable v

def reference (v : Variable) : Lift Expr := do
  return .var v (← typed v)

def push (type : StackType) (constant : Option Value) : Lift Slot := do
  let f ← get
  let slot : Slot := ⟨f.nextSlot, type, constant⟩
  set { f with stack := slot :: f.stack, nextSlot := f.nextSlot + 1 }
  emit (.declare (slotType ctx slot) type [])
  return slot

def pushAll (types : List StackType) : Lift (List Slot) :=
  types.mapM fun t => push ctx t none

def pop (type : StackType) : Lift Slot := do
  let f ← get
  match f.stack with
  | [] => imbalance ctx (.popEmpty type)
  | slot :: rest =>
    set { f with stack := rest }
    if slot.type = type then return slot
    else imbalance ctx (.popOther type (slotVariable ctx slot))

/-- Pop that many slots, whatever they are; they come in push order. -/
def popMany (count : Nat) : Lift (List Slot) := do
  let f ← get
  if f.stack.length < count then imbalance ctx (.popMany count f.stack.length)
  else
    set { f with stack := f.stack.drop count }
    return (f.stack.take count).reverse

def popStrings : Nat → Lift (List Slot)
  | 0 => return []
  | n + 1 => do
    let top ← pop ctx .string
    return (← popStrings n) ++ [top]

def popAll : Lift (List Slot) := do
  let f ← get
  set { f with stack := [] }
  return f.stack.reverse

def popAs (p : Prototype) : Lift Expr := do
  let slot ← pop ctx p.stack
  unify (slotType ctx slot) (← pinned ctx p)
  return slotExpr ctx slot

def popConstant (type : StackType) : Lift Value := do
  let slot ← pop ctx type
  match slot.constant with
  | some v => return v
  | none => defect ctx (.notConstant (slotVariable ctx slot))

def popInt : Lift Int32 := do
  match ← popConstant ctx .int with
  | .int n => return n
  | .str _ => defect ctx (.notIntConstant 0)

def popText : Lift String := do
  match ← popConstant ctx .string with
  | .str s => return s
  | .int _ => defect ctx (.notIntConstant 0)

def peek (depth : Nat) : Lift (Option Value) := do
  return (← get).stack[depth]?.bind Slot.constant

def peekInt (depth : Nat) : Lift Int32 := do
  match (← peek depth).bind Value.asInt with
  | some n => return n
  | none => defect ctx (.notIntConstant depth)

def operand : Lift Value := do
  match ctx.code.operands[(← get).pc]? with
  | some v => return v
  | none => defect ctx .noOperand

def intOperand : Lift Int32 := do
  match ← operand ctx with
  | .int n => return n
  | v => defect ctx (.operandNotInt v)

def jump (offset : Int32) : Lift Label := do
  let target := Script.target (← get).pc offset
  if 0 ≤ target ∧ target < ctx.code.length then return target.toNat
  else defect ctx (.jumpOutside target)

def define (opcode : Opcode) (arguments : List Expr) (type : StackType) (typing : TypeVar) :
    Lift Instruction := do
  let slot ← push ctx type none
  unify (slotType ctx slot) typing
  return .assign [slotExpr ctx slot] (.op opcode arguments [type] [typing] false)

end Lift

end ClientScript
