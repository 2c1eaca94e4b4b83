import ClientScript.Opcode
import ClientScript.Prototype
import ClientScript.Variable

/-!
Commands: the families of rules that opcodes are lifted by. Most opcodes are declarative:
a signature lists what they take and give. The rest move data, jump, call, register hooks, or
depend on constants on the stack.
-/
namespace ClientScript

inductive Source where
  | stack
  | operand
  | localVar
  deriving DecidableEq, Repr

def Source.name : Source → String
  | .stack => "stack"
  | .operand => "operand"
  | .localVar => "local"

inductive Destination where
  | stack
  | localVar
  deriving DecidableEq, Repr

def Destination.name : Destination → String
  | .stack => "stack"
  | .localVar => "local"

/-- What a declarative command takes and gives, in push order. -/
structure Signature where
  opcode : Opcode
  args : List (Prototype × Source)
  defs : List (Prototype × Destination)
  /-- A non-zero operand selects component-relative addressing. -/
  dot : Bool
  deriving DecidableEq

namespace Signature

def usesOperand (s : Signature) : Bool :=
  s.dot || s.args.any (·.2 != .stack) || s.defs.any (·.2 != .stack)

def stackArguments (s : Signature) : List StackType :=
  (s.args.filter (·.2 == .stack)).map (·.1.stack)

end Signature

inductive Storage where
  | varp | varbit | intLocal | stringLocal | varcInt | varcString
  deriving DecidableEq, Repr

namespace Storage

def name : Storage → String
  | .varp => "Varp"
  | .varbit => "Varbit"
  | .intLocal => "IntLocal"
  | .stringLocal => "StringLocal"
  | .varcInt => "VarcInt"
  | .varcString => "VarcString"

def stack : Storage → StackType
  | .stringLocal | .varcString => .string
  | .varp | .varbit | .intLocal | .varcInt => .int

/-- The member a script names by an operand. Locals have no negative numbers. -/
def member? (s : Storage) (script operand : Int32) : Option Variable :=
  match s with
  | .varp => some (.varp operand)
  | .varbit => some (.varbit operand)
  | .varcInt => some (.varcInt operand)
  | .varcString => some (.varcString operand)
  | .intLocal | .stringLocal =>
    if 0 ≤ operand.toInt then some (.localVar script operand.toInt.toNat s.stack) else none

theorem member?_cases {s : Storage} {script operand : Int32} {v : Variable}
    (h : s.member? script operand = some v) :
    (0 ≤ operand.toInt ∧ v = .localVar script operand.toInt.toNat s.stack) ∨
      (v.isGlobal ∧ v.type = s.stack) := by
  cases s with
  | intLocal | stringLocal =>
    obtain ⟨low, same⟩ := Option.ite_none_right_eq_some.1 h
    exact .inl ⟨low, (Option.some.inj same).symm⟩
  | varp | varbit | varcInt | varcString =>
    obtain rfl := Option.some.inj h
    exact .inr ⟨rfl, rfl⟩

theorem type_of_member? {s : Storage} {script operand : Int32} {v : Variable}
    (h : s.member? script operand = some v) : v.type = s.stack := by
  rcases member?_cases h with ⟨-, rfl⟩ | ⟨-, type⟩
  · rfl
  · exact type

end Storage

inductive Transmit where
  | none
  | untyped
  | stat
  | inv
  | varp
  | varcInt
  | varcString
  deriving DecidableEq, Repr

def Transmit.name : Transmit → String
  | .none => "None"
  | .untyped => "Untyped"
  | .stat => "Stat"
  | .inv => "Inv"
  | .varp => "Varp"
  | .varcInt => "VarcInt"
  | .varcString => "VarcString"

inductive Command where
  | switch
  | goto
  | branchCompare
  | ret
  | proc
  | invoke
  | enum
  | enumHasOutput
  | defineArray
  | pushArrayInt
  | popArrayInt
  | discard (type : StackType)
  | constant (type : StackType)
  | load (storage : Storage)
  | store (storage : Storage)
  | joinString
  | basic (signature : Signature)
  | hook (transmit : Transmit)
  | param (receiver : Prototype)
  | dbGetField
  deriving DecidableEq

def Command.name : Command → String
  | .switch => "Switch"
  | .goto => "Goto"
  | .branchCompare => "BranchCompare"
  | .ret => "Return"
  | .proc => "Proc"
  | .invoke => "Invoke"
  | .enum => "Enum"
  | .enumHasOutput => "EnumHasOutput"
  | .defineArray => "DefineArray"
  | .pushArrayInt => "PushArrayInt"
  | .popArrayInt => "PopArrayInt"
  | .discard _ => "Discard"
  | .constant _ => "Constant"
  | .load _ => "Load"
  | .store _ => "Store"
  | .joinString => "JoinString"
  | .basic _ => "Basic"
  | .hook _ => "Hook"
  | .param _ => "Param"
  | .dbGetField => "DbGetField"

end ClientScript
