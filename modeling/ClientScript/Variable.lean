import ClientScript.Value

/-!
Storage locations. Stack slots, locals and arrays belong to one script; the other kinds are
shared by all scripts.
-/
namespace ClientScript

inductive Variable where
  | stack (script : Int32) (id : Nat) (type : StackType)
  /-- A local, numbered within the locals of its stack type. Arguments come first. -/
  | localVar (script : Int32) (index : Nat) (type : StackType)
  | varp (id : Int32)
  | varbit (id : Int32)
  | varcInt (id : Int32)
  | varcString (id : Int32)
  | array (script : Int32) (index : Nat)
  deriving DecidableEq

namespace Variable

def type : Variable → StackType
  | .stack _ _ t | .localVar _ _ t => t
  | .varcString _ => .string
  | .varp _ | .varbit _ | .varcInt _ | .array _ _ => .int

def isStack : Variable → Bool
  | .stack .. => true
  | _ => false

def isGlobal : Variable → Bool
  | .varp _ | .varbit _ | .varcInt _ | .varcString _ => true
  | _ => false

def text : Variable → String
  | .stack _ id _ => s!"stack{id}"
  | .localVar _ index t => s!"${t.name}{index}"
  | .varp id => s!"%var{id}"
  | .varbit id => s!"%varbit{id}"
  | .varcInt id => s!"%varcint{id}"
  | .varcString id => s!"%varcstring{id}"
  | .array _ index => s!"$array{index}"

def kindRank : Variable → Nat
  | .stack .. => 0
  | .localVar .. => 1
  | .varp _ => 2
  | .varbit _ => 3
  | .varcInt _ => 4
  | .varcString _ => 5
  | .array .. => 6

def sortKey : Variable → List Int
  | .stack script id t | .localVar script id t =>
    [script.toInt, id, match t with | .int => 0 | .string => 1]
  | .varp id | .varbit id | .varcInt id | .varcString id => [id.toInt]
  | .array script index => [script.toInt, index]

def compare (a b : Variable) : Ordering :=
  (Ord.compare a.kindRank b.kindRank).then (Ord.compare a.sortKey b.sortKey)

/-- The locals that hold the arguments of a script, when `ints` and `strings` arguments came
    before. -/
def parametersFrom (script : Int32) : Nat → Nat → List StackType → List Variable
  | _, _, [] => []
  | ints, strings, .int :: ts =>
    .localVar script ints .int :: parametersFrom script (ints + 1) strings ts
  | ints, strings, .string :: ts =>
    .localVar script strings .string :: parametersFrom script ints (strings + 1) ts

/-- The locals that hold arguments of the given stack types: the n-th argument of a stack type
    is the n-th local of it. -/
def parameters (script : Int32) (types : List StackType) : List Variable :=
  parametersFrom script 0 0 types

theorem map_type_parametersFrom (script : Int32) (types : List StackType) :
    ∀ ints strings, (parametersFrom script ints strings types).map type = types := by
  induction types with
  | nil => intro _ _; rfl
  | cons t ts ih => intro _ _; cases t <;> simp [parametersFrom, type, ih]

theorem map_type_parameters (script : Int32) (types : List StackType) :
    (parameters script types).map type = types :=
  map_type_parametersFrom script types 0 0

end Variable

inductive TypeVar where
  | cell (index : Nat)
  | ofVariable (v : Variable)
  | ofResult (script : Int32) (slot : Nat)
  | ofValue (script : Int32) (n : Nat)
  deriving DecidableEq

def TypeVar.text : TypeVar → String
  | .cell n => s!"t{n}"
  | .ofVariable v => s!"t({v.text})"
  | .ofResult script slot => s!"t(return {slot} of {script})"
  | .ofValue script n => s!"t(value {n} of {script})"

end ClientScript
