import ClientScript.Expr
import ClientScript.IntMap

/-!
Instructions of the typed code. A label names the script position it stands in front of and
emits nothing.
-/
namespace ClientScript

abbrev Label := Nat

def Label.text (l : Label) : String := s!"@{l}"

inductive Instruction where
  | assign (definitions : List Expr) (expression : Expr)
  | branch (condition : Expr) (target : Label)
  | goto (target : Label)
  | switch (expression : Expr) (cases : IntMap Label)
  | ret (values : List Expr)
  | label (anchor : Label)
  deriving DecidableEq

namespace Instruction

/-- The operand stack must be empty after these. -/
def isTerminal : Instruction → Bool
  | .branch .. | .goto _ | .switch .. | .ret _ => true
  | .assign .. | .label _ => false

def isDecision : Instruction → Bool
  | .branch .. | .switch .. => true
  | _ => false

def fallsThrough : Instruction → Bool
  | .goto _ | .ret _ => false
  | _ => true

/-- Where an instruction may jump to, cases in ascending order of value. -/
def targets : Instruction → List Label
  | .branch _ target | .goto target => [target]
  | .switch _ cases => cases.values
  | _ => []

def anchor? : Instruction → Option Label
  | .label l => some l
  | _ => none

def isStatement : Instruction → Bool
  | .assign .. | .ret _ => true
  | _ => false

/-- An assignment of a variable or literal to variables. Such a statement may run ahead of a
    test it used to follow. -/
def isCopy : Instruction → Bool
  | .assign definitions expression => definitions.all Expr.isVar && expression.isAtom
  | _ => false

def typeVars : Instruction → List TypeVar
  | .assign definitions expression => Expr.typeVarsAll definitions ++ expression.typeVars
  | .branch e _ | .switch e _ => e.typeVars
  | .ret values => Expr.typeVarsAll values
  | .goto _ | .label _ => []

def text : Instruction → String
  | .assign [] expression => expression.text ++ ";"
  | .assign definitions expression =>
    Expr.listText ", " definitions ++ " = " ++ expression.text ++ ";"
  | .branch condition target => "if (" ++ condition.text ++ ") goto " ++ target.text ++ ";"
  | .goto target => "goto " ++ target.text ++ ";"
  | .switch expression cases =>
    "switch (" ++ expression.text ++ ") \x7b" ++
      String.join (cases.entries.map fun c => " " ++ toString c.1 ++ ": " ++ c.2.text ++ ";") ++
      " \x7d"
  | .ret values => "return(" ++ Expr.listText ", " values ++ ");"
  | .label l => l.text ++ ":"

theorem isTerminal_of_not_fallsThrough {i : Instruction} (h : i.fallsThrough = false) :
    i.isTerminal = true := by
  cases i <;> simp_all [fallsThrough, isTerminal]

end Instruction

end ClientScript
