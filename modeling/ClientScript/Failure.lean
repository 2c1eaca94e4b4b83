import ClientScript.Instruction
import ClientScript.Prototype
import ClientScript.Text.Quoted
import ClientScript.Typing.Narrowing

/-!
Failures: why a script has no typed code or no structured tree. Each cause keeps its data; the
wording is in `message` alone. A failure of a script is passed on to its callers as the source
of theirs.
-/
namespace ClientScript

inductive Imbalance where
  | valuesLeft (count : Nat) (after : Instruction)
  | valuesAtEnd
  | popEmpty (wanted : StackType)
  | popOther (wanted : StackType) (found : Variable)
  | popMany (wanted held : Nat)
  | returned (values declared : List StackType)
  | called (callee : Int32) (wanted held : List StackType)

def Imbalance.message : Imbalance → String
  | .valuesLeft count after => s!"{count} values left on the stack after {after.text}"
  | .valuesAtEnd => "script ends with values on the stack"
  | .popEmpty wanted => s!"pop of {wanted.name} from an empty stack"
  | .popOther wanted found => s!"expected {wanted.name}, found {found.type.name} {found.text}"
  | .popMany wanted held => s!"pop of {wanted} values from a stack of {held}"
  | .returned values declared =>
    s!"returns {StackType.listText values}, declared {StackType.listText declared}"
  | .called callee wanted held =>
    s!"script {callee} takes {StackType.listText wanted}, " ++
      s!"stack holds {StackType.listText held}"

inductive Defect where
  | noOperand
  | operandNotInt (operand : Value)
  | jumpOutside (target : Int)
  | noSwitchTable (index : Int32)
  | notConstant (v : Variable)
  | notIntConstant (depth : Nat)
  | negativeLocal
  | operandTaken (opcode : Opcode) (operand : Value)
  | operandNotA (operand : Value) (expected : Prototype)
  | constantNotA (constant : Value) (expected : StackType)
  | noTransmitList
  | unknownDescriptor (c : Char)
  | notTypeTag (tag : Int32)
  | unknownElementType (byte : Nat)

def Defect.message : Defect → String
  | .noOperand => "no operand"
  | .operandNotInt operand => s!"expected an integer operand, found {operand.text}"
  | .jumpOutside target => s!"jump target {target} is outside the script"
  | .noSwitchTable index => s!"no switch table {index}"
  | .notConstant v => s!"{v.text} is not a constant"
  | .notIntConstant depth => s!"stack value {depth} below the top is not an integer constant"
  | .negativeLocal => "negative local"
  | .operandTaken opcode operand =>
    s!"opcode {opcode.text} takes no operand, found {operand.text}"
  | .operandNotA operand expected => s!"operand {operand.text} is not a {expected.text}"
  | .constantNotA constant expected => s!"constant {constant.text} is not a {expected.name}"
  | .noTransmitList => "hook takes no transmit list"
  | .unknownDescriptor c => s!"unknown type descriptor {Text.quoteChar c}"
  | .notTypeTag tag => s!"{tag} is not a type tag"
  | .unknownElementType byte => s!"unknown array element type {byte}"

inductive Malformation where
  | unknownScript
  | atPosition (pc : Nat) (defect : Defect)
  | negativeLocalIndex
  | negativeJoinCount
  | negativeArrayIndex (index : Int32)
  | jumpPastEnd (target : Label)
  | noAnchor (target : Label)
  | endsWithBranch
  | endsWithSwitch

def Malformation.message (script : Int32) : Malformation → String
  | .unknownScript => s!"Unknown script {script}"
  | .atPosition pc .noOperand => s!"Script {script} has no operand at pc {pc}"
  | .atPosition pc defect => s!"Script {script} pc {pc}: {defect.message}"
  | .negativeLocalIndex => s!"Script {script}: negative local index"
  | .negativeJoinCount => s!"Script {script}: negative join count"
  | .negativeArrayIndex index => s!"Script {script}: negative array index {index}"
  | .jumpPastEnd target => s!"Script {script} jumps past its end to {target}"
  | .noAnchor target => s!"Script {script} jumps to {target.text} which has no anchor"
  | .endsWithBranch => s!"Script {script} ends with a branch"
  | .endsWithSwitch => s!"Script {script} ends with a switch"

inductive Obstacle where
  | noFunction
  | revisited (block : Nat)
  | loopWithoutTest (block : Nat)
  | loopWithoutExit (block : Nat)
  | unplaced (block : Nat)

def Obstacle.message : Obstacle → String
  | .noFunction => "no interpreted function"
  | .revisited block => s!"block B{block} is reached outside its enclosing construct"
  | .loopWithoutTest block =>
    s!"loop at block B{block} does not start with a conditional exit"
  | .loopWithoutExit block => s!"loop at block B{block} has no single exit"
  | .unplaced block => s!"block B{block} was never placed"

inductive Failure where
  | unknownOpcode (script : Int32) (pc : Nat) (opcode : Opcode)
  | stackImbalance (script : Int32) (pc : Nat) (cause : Imbalance)
  | typeConflict (conflict : Typing.Conflict)
  | missingCallee (caller callee : Int32)
  | calleeFailed (caller callee : Int32) (source : Failure)
  | missingPrototype (key : Int32)
  | unstructured (script : Int32) (obstacle : Obstacle)
  | malformed (script : Int32) (cause : Malformation)
  | recursionLimit (depth : Nat)

namespace Failure

def message : Failure → String
  | .unknownOpcode script pc opcode =>
    s!"Unknown opcode {opcode.text} at script {script} pc {pc}"
  | .stackImbalance script pc cause =>
    s!"Stack imbalance in script {script} at pc {pc}: {cause.message}"
  | .typeConflict conflict => conflict.message
  | .missingCallee caller callee => s!"Script {caller} calls missing script {callee}"
  | .calleeFailed caller callee source =>
    s!"Script {caller} depends on script {callee}, which failed: {source.message}"
  | .missingPrototype key => s!"No prototype declared for key {key}"
  | .unstructured script obstacle => s!"Cannot structure script {script}: {obstacle.message}"
  | .malformed script cause => s!"Malformed: {cause.message script}"
  | .recursionLimit depth => s!"Reach the maximum recursion level allowed - {depth}"

/-- Failures that stem from the limit on nested calls. -/
def isDepthLimit : Failure → Bool
  | .recursionLimit _ => true
  | .calleeFailed _ _ source => source.isDepthLimit
  | _ => false

end Failure

end ClientScript
