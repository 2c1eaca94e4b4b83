import ClientScript.Prototype
import ClientScript.Typing.Forest
import ClientScript.Typing.Narrowing
import ClientScript.Variable

/-!
The typing store: a forest of cells and the names of cells. A search that is followed by a change
compresses its path first, also if the change fails then. A failing operation changes no class,
except that the list operations keep what they did before the failing element.
-/
namespace ClientScript

structure Typings where
  cells : Array Typings.Cell
  names : List (TypeVar × Nat)
  climbs : Typings.Climbs cells

namespace Typings

open Typing

def empty : Typings := ⟨#[], [], by intro i h; simp [parentOf] at h⟩

def size (s : Typings) : Nat := s.cells.size

def grow (s : Typings) (stack : StackType) (types : List ValueType) : Typings :=
  { s with
    cells := pushed s.cells stack types
    climbs := climbs_pushed s.climbs stack types }

def cell? (s : Typings) : TypeVar → Option Nat
  | .cell n => if n < s.size then some n else none
  | t => (s.names.find? fun e => e.1 == t).map (·.2)

def declare (s : Typings) (t : TypeVar) (stack : StackType) (types : List ValueType) : Typings :=
  match s.cell? t with
  | some _ => s
  | none =>
    let s' := s.grow stack types
    { s' with names := (t, s.size) :: s.names }

def find (s : Typings) (i : Nat) : Nat := rootOf s.cells s.climbs i

def sameClass (s : Typings) (a b : Nat) : Bool := s.find a == s.find b

def stackOf (s : Typings) (i : Nat) : StackType :=
  (s.cells[s.find i]?.map Cell.stack).getD .int

def typesOf (s : Typings) (i : Nat) : List ValueType :=
  (s.cells[s.find i]?.map Cell.types).getD []

def resolve (s : Typings) (i : Nat) : ValueType := Typing.resolve (s.stackOf i) (s.typesOf i)

def tightest (s : Typings) (i : Nat) : ValueType := Typing.tightest (s.stackOf i) (s.typesOf i)

def Cell.summary (c : Cell) : Summary := ⟨c.stack, c.types⟩

def compress (s : Typings) (i : Nat) : Typings :=
  { s with cells := flatten s.cells s.climbs i, climbs := climbs_flatten s.climbs i }

def retype (s : Typings) (root : Nat) (types : List ValueType) : Typings :=
  { s with cells := pin s.cells root types, climbs := climbs_pin s.climbs root types }

def join (s : Typings) (top child : Nat) (types : List ValueType) (ne : s.find top ≠ s.find child)
    (inside : s.find top < s.cells.size)
    (le : rankOf s.cells (s.find child) ≤ rankOf s.cells (s.find top)) : Typings :=
  { s with
    cells := link s.cells (s.find top) (s.find child) types
    climbs := climbs_link s.climbs types ne inside (parentOf_rootOf s.climbs top) le }

def freeze (s : Typings) (i : Nat) (t : ValueType) : Except Conflict Unit × Typings :=
  let s := s.compress i
  match s.cells[s.find i]? with
  | none => (.ok (), s)
  | some c =>
    if c.stack ≠ t.stack then (.error (.pinned c.summary t), s)
    else if t ∈ c.types then (.ok (), s)
    else
      match narrow (c.types ++ [t]) with
      | none => (.error (.pinned c.summary t), s)
      | some types => (.ok (), s.retype (s.find i) types)

/-- Make one class of two. The root of lower rank goes under the other; of equal ranks the
    second goes under the first. -/
def unite (s : Typings) (a b : Nat) : Except Conflict Unit × Typings :=
  if ne : s.find a = s.find b then (.ok (), s)
  else
    match ha : s.cells[s.find a]?, hb : s.cells[s.find b]? with
    | some left, some right =>
      if left.stack ≠ right.stack then (.error (.classes left.summary right.summary), s)
      else
        match narrow (gather left.types right.types) with
        | none => (.error (.classes left.summary right.summary), s)
        | some types =>
          if le : right.rank ≤ left.rank then
            (.ok (), s.join a b types ne (Array.getElem?_eq_some_iff.1 ha).1
              (by simpa [rankOf, ha, hb] using le))
          else
            (.ok (), s.join b a types (Ne.symm ne) (Array.getElem?_eq_some_iff.1 hb).1
              (by simp only [rankOf, ha, hb, Option.map_some, Option.getD_some]; omega))
    | _, _ => (.ok (), s)

def merge (s : Typings) (a b : Nat) : Except Conflict Unit × Typings :=
  ((s.compress a).compress b).unite a b

def compare (s : Typings) (a b : Nat) : Except Conflict Unit × Typings := s.merge a b

/-- Merge pair by pair, up to the first conflict. -/
def mergeAll (s : Typings) : List (Nat × Nat) → Except Conflict Unit × Typings
  | [] => (.ok (), s)
  | (a, b) :: rest =>
    match s.merge a b with
    | (.ok _, s') => s'.mergeAll rest
    | (.error c, s') => (.error c, s')

def assign (s : Typings) (definitions values : List Nat) : Except Conflict Unit × Typings :=
  if definitions.length = values.length then s.mergeAll (definitions.zip values)
  else (.error (.lengths definitions.length values.length), s)

def declareVariables (s : Typings) (vs : List Variable) : Typings :=
  vs.foldl (fun s v => s.declare (.ofVariable v) v.type []) s

/-- Declare the results of a script from `slot` on. A slot keeps the stack it was first wanted
    on. -/
def declareResultsFrom (s : Typings) (script : Int32) :
    Nat → List StackType → Except Conflict Unit × Typings
  | _, [] => (.ok (), s)
  | slot, wanted :: rest =>
    let s' := s.declare (.ofResult script slot) wanted []
    let held := ((s'.cell? (.ofResult script slot)).map s'.stackOf).getD wanted
    if held = wanted then s'.declareResultsFrom script (slot + 1) rest
    else (.error (.result slot script held wanted), s')

def declareResults (s : Typings) (script : Int32) (types : List StackType) :
    Except Conflict Unit × Typings :=
  s.declareResultsFrom script 0 types

def results (s : Typings) (script : Int32) (count : Nat) : List Nat :=
  (List.range count).filterMap fun slot => s.cell? (.ofResult script slot)

end Typings

end ClientScript
