import ClientScript.Chain

/-!
A lifted script: its typed code and its declared shape.
-/
namespace ClientScript

structure Function where
  script : Int32
  /-- Integers first, then strings. -/
  arguments : List Variable
  code : Chain
  returns : List StackType
  deriving DecidableEq

namespace Function

def labels (f : Function) : List Label := f.code.instructions.filterMap Instruction.anchor?

def opcodeCount (f : Function) : Nat := f.code.length - f.labels.length

end Function

end ClientScript
