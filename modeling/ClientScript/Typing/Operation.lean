import ClientScript.Typing.Store

/-!
The operations of a typing store as its callers ask for them, and what they answer: the cells they
give, or why they failed. The state behind a failure is kept too.
-/
namespace ClientScript.Typings

open Typing

inductive Operation where
  | fresh (stack : StackType)
  | prototype (p : Prototype)
  | ofVariable (v : Variable)
  | args (script : Int32) (types : List StackType)
  | returns (script : Int32) (types : List StackType)
  | merge (a b : Nat)
  | compare (a b : Nat)
  | assign (definitions values : List Nat)
  | freeze (i : Nat) (t : ValueType)

def Operation.cells : Operation → List Nat
  | .fresh _ | .prototype _ | .ofVariable _ | .args .. | .returns .. => []
  | .merge a b | .compare a b => [a, b]
  | .assign definitions values => definitions ++ values
  | .freeze i _ => [i]

def cellsOf (s : Typings) (vs : List Variable) : List Nat :=
  vs.filterMap fun v => s.cell? (.ofVariable v)

def perform (s : Typings) : Operation → Except Conflict (List Nat) × Typings
  | .fresh stack => (.ok [s.size], s.grow stack [])
  | .prototype p => (.ok [s.size], s.grow p.stack [p.type])
  | .ofVariable v => (.ok ((s.declareVariables [v]).cellsOf [v]), s.declareVariables [v])
  | .args script types =>
    let vs := Variable.parameters script types
    (.ok ((s.declareVariables vs).cellsOf vs), s.declareVariables vs)
  | .returns script types =>
    let r := s.declareResults script types
    (r.1.map fun _ => r.2.results script types.length, r.2)
  | .merge a b =>
    let r := s.merge a b
    (r.1.map fun _ => [], r.2)
  | .compare a b =>
    let r := s.compare a b
    (r.1.map fun _ => [], r.2)
  | .assign definitions values =>
    let r := s.assign definitions values
    (r.1.map fun _ => [], r.2)
  | .freeze i t =>
    let r := s.freeze i t
    (r.1.map fun _ => [], r.2)

end ClientScript.Typings
