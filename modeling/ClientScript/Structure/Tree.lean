import ClientScript.Instruction

/-!
Structured code: a list of pieces that run one after the other. A tree is never the empty list;
code that does nothing is one sequence without instructions.
-/
namespace ClientScript

structure Condition where
  /-- Runs before every evaluation of the test. -/
  prelude : List Instruction
  test : Expr
  /-- The body runs when the test is false. -/
  negated : Bool

inductive Piece where
  | seq (instructions : List Instruction)
  | choice (branches : List (Condition × List Piece)) (fallback : Option (List Piece))
  | loop (condition : Condition) (body : List Piece)
  /-- Values that share a body stand together in ascending order. -/
  | switch (expression : Expr) (cases : List (List Int32 × List Piece))
      (default : Option (List Piece))

abbrev Tree := List Piece

namespace Tree

def empty : Tree := [.seq []]

def isEmpty : Tree → Bool
  | [.seq []] => true
  | _ => false

mutual

def pieceStatements : Piece → List Instruction
  | .seq is => is
  | .choice branches fallback => branchStatements branches ++ optionStatements fallback
  | .loop condition body => condition.prelude ++ flatten body
  | .switch _ cases default => caseStatements cases ++ optionStatements default

def flatten : List Piece → List Instruction
  | [] => []
  | p :: ps => pieceStatements p ++ flatten ps

def branchStatements : List (Condition × List Piece) → List Instruction
  | [] => []
  | (condition, body) :: rest => condition.prelude ++ flatten body ++ branchStatements rest

def caseStatements : List (List Int32 × List Piece) → List Instruction
  | [] => []
  | (_, body) :: rest => flatten body ++ caseStatements rest

def optionStatements : Option (List Piece) → List Instruction
  | none => []
  | some body => flatten body

end

mutual

def pieceDepth : Piece → Nat
  | .seq _ => 1
  | .choice branches fallback => max (branchDepth branches) (optionDepth fallback) + 1
  | .loop _ body => depth body + 1
  | .switch _ cases default => max (caseDepth cases) (optionDepth default) + 1

/-- How deep a tree nests; a flat sequence has depth 1. -/
def depth : List Piece → Nat
  | [] => 0
  | p :: ps => max (pieceDepth p) (depth ps)

def branchDepth : List (Condition × List Piece) → Nat
  | [] => 0
  | (_, body) :: rest => max (depth body) (branchDepth rest)

def caseDepth : List (List Int32 × List Piece) → Nat
  | [] => 0
  | (_, body) :: rest => max (depth body) (caseDepth rest)

def optionDepth : Option (List Piece) → Nat
  | none => 0
  | some body => depth body

end

/-- Put a piece in front of a list; neighbouring sequences become one. -/
def attach : Piece → List Piece → List Piece
  | .seq is, .seq js :: rest => .seq (is ++ js) :: rest
  | p, ps => p :: ps

def attachAll (ps rest : List Piece) : List Piece := ps.foldr attach rest

def sequence : List Instruction → List Piece
  | [] => []
  | is => [.seq is]

/-- The body of an arm, which is there even if it does nothing. -/
def ofPieces : List Piece → Tree
  | [] => empty
  | ps => ps

def prepend (is : List Instruction) : List (Condition × Tree) → List (Condition × Tree)
  | [] => []
  | (c, body) :: rest => ({ c with prelude := is ++ c.prelude }, body) :: rest

/-- A fallback that is itself a choice, with at most a sequence before it and nothing behind it,
    continues the branches. -/
def collapse (branches : List (Condition × Tree)) : List Piece → Piece
  | [] => .choice branches none
  | [.choice inner fallback] => .choice (branches ++ inner) fallback
  | [.seq is, .choice inner fallback] => .choice (branches ++ prepend is inner) fallback
  | [.seq []] => .choice branches none
  | other => .choice branches (some other)

end Tree

end ClientScript
