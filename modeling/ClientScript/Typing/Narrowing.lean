import ClientScript.ValueType

/-!
The types a class of values is pinned to. Plain integers are weak: a more specific type replaces
them. What is left is nothing, one type, or a compatible pair in order; any other set is a
conflict.
-/
namespace ClientScript.Typing

/-- Drop the weak integer beside other types. -/
def dropWeak (types : List ValueType) : List ValueType :=
  if 1 < types.length then types.filter (· ≠ .int) else types

def narrow (types : List ValueType) : Option (List ValueType) :=
  match dropWeak types with
  | [] => some []
  | [t] => some [t]
  | [a, b] =>
    if (ValueType.union a b).isSome then
      some (if a.rank ≤ b.rank then [a, b] else [b, a])
    else none
  | _ => none

def gather (left right : List ValueType) : List ValueType :=
  right.foldl (fun acc t => if t ∈ acc then acc else acc ++ [t]) left

def resolve (stack : StackType) : List ValueType → ValueType
  | [] => stack.defaultType
  | [t] => t
  | a :: b :: _ => (ValueType.union a b).getD a

/-- The tightest type that every member of a class satisfies. -/
def tightest (stack : StackType) : List ValueType → ValueType
  | a :: b :: _ => (ValueType.intersection a b).getD a
  | types => resolve stack types

structure Summary where
  stack : StackType
  types : List ValueType
  deriving DecidableEq

def Summary.text (s : Summary) : String :=
  match s.types with
  | [] => s.stack.name
  | [t] => t.literal
  | ts => "\x7b" ++ ", ".intercalate (ts.map ValueType.literal) ++ "\x7d"

inductive Conflict where
  | classes (left right : Summary)
  | pinned (cls : Summary) (pin : ValueType)
  | lengths (definitions values : Nat)
  | result (slot : Nat) (script : Int32) (held wanted : StackType)
  deriving DecidableEq

def Conflict.left : Conflict → String
  | .classes l _ => l.text
  | .pinned c _ => c.text
  | .lengths n _ => s!"{n} definitions"
  | .result slot script held _ => s!"return {slot} of script {script} ({held.name})"

def Conflict.right : Conflict → String
  | .classes _ r => r.text
  | .pinned _ t => t.literal
  | .lengths _ n => s!"{n} values"
  | .result _ _ _ wanted => wanted.name

def Conflict.message (c : Conflict) : String :=
  s!"Type conflict between {c.left} and {c.right}"

end ClientScript.Typing
