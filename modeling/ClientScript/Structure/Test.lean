import ClientScript.Flow.Graph

/-!
Tests. A branch block that shares a target with the branch before it, is entered from nowhere
else and only copies values becomes part of its test: a shared taken target makes a disjunction,
a shared fallthrough a conjunction.
-/
namespace ClientScript

/-- Where the region being built ends: its merge point and the header of its loop. -/
structure Scope where
  stop : Option Nat
  header : Option Nat

namespace Scope

def free : Scope := ⟨none, none⟩

def endsAt (s : Scope) (n : Nat) : Bool := s.stop == some n || s.header == some n

def upTo (s : Scope) (stop : Option Nat) : Scope := { s with stop := stop }

end Scope

structure Test where
  /-- Statements of the blocks that were folded in, in program order. -/
  prelude : List Instruction
  expression : Expr
  taken : Nat
  fallthrough : Nat

structure Fold where
  block : Nat
  opcode : Opcode
  statements : List Instruction
  condition : Expr
  taken : Nat
  fallthrough : Nat

namespace Layout

variable (l : Layout)

def joinTests (opcode : Opcode) (left right : Expr) : Expr :=
  .op opcode [left, right] [] [] false

/-- The block can be evaluated ahead of its turn inside the scope: it only copies, heads no loop,
    is not placed yet, and control comes from the folded blocks alone. -/
def isFoldable (placed : Marks) (scope : Scope) (folded : List Nat) (b : Block) : Bool :=
  placed.isOpen b.index && b.statements.all Instruction.isCopy && !folded.contains b.index &&
    !scope.endsAt b.index && !l.isLoopHeader b.index &&
    (l.digraph.prev b.index).all folded.contains

def foldBy? (placed : Marks) (scope : Scope) (folded : List Nat) (t : Test) (opcode : Opcode)
    (candidate : Nat) : Option Fold :=
  match l.graph.block? candidate with
  | none => none
  | some b =>
    match b.exit with
    | .tests condition taken fallthrough =>
      let taken := l.graph.forward taken
      let fallthrough := l.graph.forward fallthrough
      let shared := if opcode = .shortOr then taken == t.taken else fallthrough == t.fallthrough
      if l.isFoldable placed scope folded b && shared then
        some ⟨candidate, opcode, b.statements, condition, taken, fallthrough⟩
      else none
    | _ => none

/-- What a test takes in next: preferably the block behind its fallthrough. -/
def fold? (placed : Marks) (scope : Scope) (folded : List Nat) (t : Test) : Option Fold :=
  (l.foldBy? placed scope folded t .shortOr t.fallthrough).or
    (l.foldBy? placed scope folded t .shortAnd t.taken)

def extendTest (t : Test) (f : Fold) : Test :=
  ⟨t.prelude ++ f.statements, joinTests f.opcode t.expression f.condition, f.taken,
    f.fallthrough⟩

/-- Take blocks into a test while there are any; each is placed. `budget` bounds the blocks not
    placed yet: with none left there is nothing to take in. -/
def foldAll (scope : Scope) : (budget : Nat) → Marks → List Nat → Test → Marks × Test
  | 0, placed, _, t => (placed, t)
  | budget + 1, placed, folded, t =>
    match l.fold? placed scope folded t with
    | none => (placed, t)
    | some f =>
      foldAll scope budget (placed.mark f.block) (folded ++ [f.block]) (extendTest t f)

def testOf (placed : Marks) (scope : Scope) (n : Nat) (condition : Expr)
    (taken fallthrough : Nat) : Marks × Test :=
  l.foldAll scope l.graph.size placed [n]
    ⟨[], condition, l.graph.forward taken, l.graph.forward fallthrough⟩

end Layout

end ClientScript
