import ClientScript.Opcode
import ClientScript.Variable

/-!
Expressions of the typed code. A hook registers a script for a UI event; a pointer names the
variable that triggers it. Two opcodes that no bytecode holds stand for short-circuit tests.
-/
namespace ClientScript

inductive Expr where
  | var (v : Variable) (typing : TypeVar)
  | const (value : Value) (typing : TypeVar)
  | op (opcode : Opcode) (arguments : List Expr) (results : List StackType)
      (typings : List TypeVar) (dot : Bool)
  | call (opcode : Opcode) (script : Int32) (arguments : List Expr) (results : List StackType)
      (typings : List TypeVar)
  /-- Registration of `script` as a handler; -1 clears the hook. -/
  | hook (opcode : Opcode) (script : Int32) (arguments : List Expr) (triggers : List Expr)
      (dot : Bool) (component : Option Expr)
  | pointer (v : Variable)
  | event (property : EventProperty)

namespace Expr

mutual

def same : Expr → Expr → Bool
  | .var v t, .var v' t' => v = v' && t = t'
  | .const c t, .const c' t' => c = c' && t = t'
  | .op o as rs ts d, .op o' as' rs' ts' d' =>
    o = o' && sameAll as as' && rs = rs' && ts = ts' && d = d'
  | .call o s as rs ts, .call o' s' as' rs' ts' =>
    o = o' && s = s' && sameAll as as' && rs = rs' && ts = ts'
  | .hook o s as gs d c, .hook o' s' as' gs' d' c' =>
    o = o' && s = s' && sameAll as as' && sameAll gs gs' && d = d' && sameOpt c c'
  | .pointer v, .pointer v' => v = v'
  | .event p, .event p' => p = p'
  | _, _ => false

def sameAll : List Expr → List Expr → Bool
  | [], [] => true
  | a :: as, b :: bs => same a b && sameAll as bs
  | _, _ => false

def sameOpt : Option Expr → Option Expr → Bool
  | none, none => true
  | some a, some b => same a b
  | _, _ => false

end

mutual

theorem same_iff : ∀ a b : Expr, same a b = true ↔ a = b
  | .var .., b => by cases b <;> simp [same]
  | .const .., b => by cases b <;> simp [same]
  | .op _ as _ _ _, b => by cases b <;> simp [same, sameAll_iff as, and_assoc]
  | .call _ _ as _ _, b => by cases b <;> simp [same, sameAll_iff as, and_assoc]
  | .hook _ _ as gs _ c, b => by
    cases b <;> simp [same, sameAll_iff as, sameAll_iff gs, sameOpt_iff c, and_assoc]
  | .pointer _, b => by cases b <;> simp [same]
  | .event _, b => by cases b <;> simp [same]

theorem sameAll_iff : ∀ as bs : List Expr, sameAll as bs = true ↔ as = bs
  | [], bs => by cases bs <;> simp [sameAll]
  | a :: as, bs => by cases bs <;> simp [sameAll, same_iff a, sameAll_iff as]

theorem sameOpt_iff : ∀ a b : Option Expr, sameOpt a b = true ↔ a = b
  | none, b => by cases b <;> simp [sameOpt]
  | some a, b => by cases b <;> simp [sameOpt, same_iff a]

end

instance : DecidableEq Expr := fun a b => decidable_of_iff _ (same_iff a b)

def typings : Expr → List TypeVar
  | .var _ t | .const _ t => [t]
  | .op _ _ _ ts _ | .call _ _ _ _ ts => ts
  | .hook .. | .pointer _ | .event _ => []

mutual

/-- The type variables in an expression, its own before those of its parts. A pointer stands for
    the type of its variable. -/
def typeVars : Expr → List TypeVar
  | .var _ t | .const _ t => [t]
  | .op _ arguments _ ts _ | .call _ _ arguments _ ts => ts ++ typeVarsAll arguments
  | .hook _ _ arguments triggers _ component =>
    typeVarsAll arguments ++ typeVarsAll triggers ++ typeVarsOpt component
  | .pointer v => [.ofVariable v]
  | .event _ => []

def typeVarsAll : List Expr → List TypeVar
  | [] => []
  | e :: es => typeVars e ++ typeVarsAll es

def typeVarsOpt : Option Expr → List TypeVar
  | none => []
  | some e => typeVars e

end

def stackTypes : Expr → List StackType
  | .var v _ => [v.type]
  | .const c _ => [c.stack]
  | .op _ _ rs _ _ | .call _ _ _ rs _ => rs
  | .event p => [p.type.stack]
  | .hook .. | .pointer _ => []

def constant? : Expr → Option Value
  | .const c _ => some c
  | _ => none

def location? : Expr → Option Variable
  | .var v _ | .pointer v => some v
  | _ => none

def isVar : Expr → Bool
  | .var .. => true
  | _ => false

def isAtom : Expr → Bool
  | .var .. | .const .. | .event _ => true
  | _ => false

def dotText (dot : Bool) : String := if dot then "." else ""

mutual

def text : Expr → String
  | .var v _ => v.text
  | .const c _ => c.text
  | .op opcode arguments _ _ dot =>
    if opcode = .shortAnd then "(" ++ listText " && " arguments ++ ")"
    else if opcode = .shortOr then "(" ++ listText " || " arguments ++ ")"
    else dotText dot ++ "op" ++ opcode.text ++ "(" ++ listText ", " arguments ++ ")"
  | .call _ script arguments _ _ =>
    "~script" ++ toString script ++ "(" ++ listText ", " arguments ++ ")"
  | .hook opcode script arguments triggers dot component =>
    dotText dot ++ "op" ++ opcode.text ++ "(script" ++ toString script ++
      "(" ++ listText ", " arguments ++ ")" ++ triggersText triggers ++
      componentText component ++ ")"
  | .pointer v => v.text
  | .event p => p.literal

def listText (separator : String) : List Expr → String
  | [] => ""
  | e :: es => text e ++ restText separator es

def restText (separator : String) : List Expr → String
  | [] => ""
  | e :: es => separator ++ text e ++ restText separator es

def triggersText : List Expr → String
  | [] => ""
  | e :: es => "\x7b" ++ text e ++ restText ", " es ++ "\x7d"

def componentText : Option Expr → String
  | none => ""
  | some e => ", " ++ text e

end

end Expr

end ClientScript
