import ClientScript.Failure

/-!
Blocks: runs of instructions that control enters at the start and leaves at the end. A block
starts at the first instruction, after a terminal one, and at a label that follows other code;
labels in a row share a block.
-/
namespace ClientScript

inductive Exit where
  | returns
  /-- Into the next block, or off the end of the script. -/
  | falls (next : Option Nat)
  | jumps (target : Nat)
  | tests (condition : Expr) (taken fallthrough : Nat)
  | dispatches (expression : Expr) (cases : List (Int32 × Nat)) (default : Nat)

inductive EdgeKind where
  | fallthrough
  | jump
  | taken
  | notTaken
  | case (value : Int32)
  | default
  deriving DecidableEq

namespace EdgeKind

def isConditional : EdgeKind → Bool
  | .taken | .notTaken => true
  | _ => false

def isSwitch : EdgeKind → Bool
  | .case _ | .default => true
  | _ => false

def text : EdgeKind → String
  | .fallthrough => ""
  | .jump => "goto"
  | .taken => "T"
  | .notTaken => "F"
  | .case value => s!"case {value}"
  | .default => "default"

end EdgeKind

namespace Exit

def edges : Exit → List (Nat × EdgeKind)
  | .returns | .falls none => []
  | .falls (some next) => [(next, .fallthrough)]
  | .jumps target => [(target, .jump)]
  | .tests _ taken fallthrough => [(taken, .taken), (fallthrough, .notTaken)]
  | .dispatches _ cases default =>
    cases.map (fun c => (c.2, .case c.1)) ++ [(default, .default)]

def successors (e : Exit) : List Nat := e.edges.map Prod.fst

def isFinal : Exit → Bool
  | .returns | .falls none => true
  | _ => false

def isDecision : Exit → Bool
  | .tests .. | .dispatches .. => true
  | _ => false

end Exit

structure Block where
  index : Nat
  entries : List (Nat × Instruction)
  exit : Exit

namespace Block

def labels (b : Block) : List Label := b.entries.filterMap fun e => e.2.anchor?

/-- What structuring keeps: everything but labels and jumps. -/
def body (b : Block) : List (Nat × Instruction) := b.entries.filter fun e => e.2.isStatement

def statements (b : Block) : List Instruction := b.body.map Prod.snd

def terminator? (b : Block) : Option (Nat × Instruction) :=
  b.entries.getLast?.filter fun e => e.2.isTerminal

/-- The target of a block that does nothing but jump on. -/
def trampoline? (b : Block) : Option Nat :=
  match b.exit with
  | .jumps target => if b.body.isEmpty then some target else none
  | _ => none

def isEmpty (b : Block) : Bool := b.body.isEmpty && b.terminator?.isNone

def opens (run : List (Nat × Instruction)) (insn : Instruction) : Bool :=
  match run.getLast? with
  | none => false
  | some (_, last) => last.isTerminal || (insn.anchor?.isSome && last.anchor?.isNone)

/-- Cut a sequence into runs; `run` is the one being collected. -/
def split (run : List (Nat × Instruction)) :
    List (Nat × Instruction) → List (List (Nat × Instruction))
  | [] => [run]
  | e :: rest => if opens run e.2 then run :: split [e] rest else split (run ++ [e]) rest

theorem flatten_split (es : List (Nat × Instruction)) :
    ∀ run, (split run es).flatten = run ++ es := by
  induction es with
  | nil => intro run; simp [split]
  | cons e es ih =>
    intro run
    simp only [split]
    split <;> simp [ih]

end Block

end ClientScript
