import ClientScript.Interpreter
import ClientScript.Structure.Region

/-!
What a run comes to: the functions and the failures by script, and the stores in their final
state. A script has a function or a failure or, if it failed for the limit on nested calls,
neither.
-/
namespace ClientScript

structure FunctionSet where
  functions : IntMap Function
  failures : IntMap Failure
  typings : Typings
  calls : CallGraph

namespace FunctionSet

def ofStores (s : Stores) : FunctionSet where
  functions := s.results.filterMap fun r =>
    match r with
    | .ok f => some f
    | .error _ => none
  failures := s.results.filterMap fun r =>
    match r with
    | .ok _ => none
    | .error f => some f
  typings := s.typings
  calls := s.calls

def variableType (set : FunctionSet) (v : Variable) : ValueType :=
  match set.typings.cell? (.ofVariable v) with
  | some i => set.typings.resolve i
  | none => v.type.defaultType

def argumentTypes? (set : FunctionSet) (script : Int32) : Option (List ValueType) :=
  (set.functions.get? script).map fun f => f.arguments.map set.variableType

/-- The tree of a script, if it has a function and that can be written as one. -/
def tree (set : FunctionSet) (script : Int32) : Except Failure Tree :=
  match set.functions.get? script with
  | some f => f.tree
  | none => .error (.unstructured script .noFunction)

end FunctionSet

end ClientScript
