import ClientScript.ValueType

/-!
Operand values, and the constants that stand for data of the current event. An event constant
is recognised by its value alone.
-/
namespace ClientScript

inductive Value where
  | int (n : Int32)
  | str (s : String)
  deriving DecidableEq

namespace Value

def asInt : Value → Option Int32
  | .int n => some n
  | .str _ => none

def asStr : Value → Option String
  | .int _ => none
  | .str s => some s

def stack : Value → StackType
  | .int _ => .int
  | .str _ => .string

/-- Integers in decimal, strings in quotes and otherwise as they are. -/
def text : Value → String
  | .int n => toString n.toInt
  | .str s => "\"" ++ s ++ "\""

end Value

inductive EventProperty where
  | mouseX | mouseY | com | opIndex | comSubId | drop | dropSubId | keyCode | keyChar | opBase
  deriving DecidableEq, Repr

namespace EventProperty

def all : List EventProperty :=
  [.mouseX, .mouseY, .com, .opIndex, .comSubId, .drop, .dropSubId, .keyCode, .keyChar, .opBase]

def literal : EventProperty → String
  | .mouseX => "event_mousex"
  | .mouseY => "event_mousey"
  | .com => "event_com"
  | .opIndex => "event_opindex"
  | .comSubId => "event_comsubid"
  | .drop => "event_drop"
  | .dropSubId => "event_dropsubid"
  | .keyCode => "event_keycode"
  | .keyChar => "event_keychar"
  | .opBase => "event_opbase"

/-- The integer properties are the least integers above the minimum, in order. -/
def value : EventProperty → Value
  | .mouseX => .int (-2147483647)
  | .mouseY => .int (-2147483646)
  | .com => .int (-2147483645)
  | .opIndex => .int (-2147483644)
  | .comSubId => .int (-2147483643)
  | .drop => .int (-2147483642)
  | .dropSubId => .int (-2147483641)
  | .keyCode => .int (-2147483640)
  | .keyChar => .int (-2147483639)
  | .opBase => .str "event_opbase"

def type : EventProperty → ValueType
  | .com | .drop => .component
  | .keyChar => .char
  | .opBase => .string
  | _ => .int

def ofValue? (v : Value) : Option EventProperty :=
  all.find? fun p => p.value == v

def ofLiteral? (s : String) : Option EventProperty :=
  all.find? fun p => p.literal == s

theorem stack_value (p : EventProperty) : p.value.stack = p.type.stack := by
  cases p <;> rfl

end EventProperty

end ClientScript
