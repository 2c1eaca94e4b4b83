import ClientScript.Script

/-!
Assembling a script. Jumps and switch cases are written with absolute positions and stored as
relative offsets; each switch adds a table of its own and names it in its operand.
-/
namespace ClientScript.Script

inductive Line where
  | arguments (ints strings : Nat)
  | returns (types : List StackType)
  | op (opcode : Opcode) (operand : Value)
  | jump (opcode : Opcode) (target : Nat)
  | switch (cases : List (Int32 × Nat))

namespace Line

def pushInt (n : Int32) : Line := .op .pushConstantInt (.int n)

def pushString (s : String) : Line := .op .pushConstantString (.str s)

end Line

def blank : Script := ⟨[], [], [], 0, 0, []⟩

def emit (s : Script) (opcode : Opcode) (operand : Value) : Script :=
  { s with opcodes := s.opcodes ++ [opcode], operands := s.operands ++ [operand] }

def append (s : Script) : Line → Script
  | .arguments ints strings => { s with intArguments := ints, stringArguments := strings }
  | .returns types => { s with returns := types }
  | .op opcode operand => s.emit opcode operand
  | .jump opcode target => s.emit opcode (.int (offset s.length target))
  | .switch cases =>
    let table := IntMap.ofList (cases.map fun c => (c.1, offset s.length c.2))
    let s' := s.emit .switch (.int (Int32.ofNat s.switches.length))
    { s' with switches := s.switches ++ [table] }

def ofLines (lines : List Line) : Script := lines.foldl append blank

theorem length_emit (s : Script) (opcode : Opcode) (operand : Value) :
    (s.emit opcode operand).length = s.length + 1 := by
  simp [emit, length]

theorem operands_append {s : Script} (even : s.operands.length = s.opcodes.length) (l : Line) :
    (s.append l).operands.length = (s.append l).opcodes.length := by
  cases l <;> simp [append, emit, even]

end ClientScript.Script
