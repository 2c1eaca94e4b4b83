import ClientScript.Trigger
import ClientScript.Variable

/-!
Effects: all that the lifting of a script asks of the stores it shares with other scripts.
A lifting is a list of effects and a result; what the stores hold does not reach back into
it except by stopping it.
-/
namespace ClientScript

inductive Effect where
  /-- The callee is to be interpreted before this script goes on. -/
  | enter (callee : Int32)
  | record (callee : Int32) (trigger : Trigger)
  /-- A type variable comes into being, pinned to the given types, unless it exists. -/
  | declare (t : TypeVar) (stack : StackType) (types : List ValueType)
  /-- The results of a script come into being, or exist on the same stacks. -/
  | results (script : Int32) (types : List StackType)
  | unify (a b : TypeVar)
  | freeze (t : TypeVar) (pin : ValueType)
  deriving DecidableEq

def Effect.edge? : Effect → Option (Int32 × Trigger)
  | .record callee trigger => some (callee, trigger)
  | _ => none

end ClientScript
