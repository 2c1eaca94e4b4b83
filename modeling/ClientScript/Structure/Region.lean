import ClientScript.Graph.Search
import ClientScript.Structure.Test
import ClientScript.Structure.Tree

/-!
Regions. A region follows control from a block to where its scope ends, and every block on the
way gives pieces: a loop header a loop, a decision a choice or a switch behind the block's
statements, any other block its statements. What a block gives is first planned, then its arms
are built as regions of their own. Each block is placed once; reaching a placed block again is an
obstacle.
-/
namespace ClientScript

/-- What a block gives. The targets in a plan are where arms start. -/
inductive Plan where
  | straight (statements : List Instruction) (follow : Option Nat)
  | loop (condition : Condition) (header inside outside : Nat)
  | guarded (statements : List Instruction) (test : Expr) (negated : Bool) (arm : Nat)
      (scope : Scope) (follow : Nat)
  | forked (statements : List Instruction) (test : Expr) (negated : Bool) (first second : Nat)
      (scope : Scope) (follow : Option Nat)
  | switched (statements : List Instruction) (expression : Expr)
      (cases : List (List Int32 × Nat)) (default : Nat) (scope : Scope) (follow : Option Nat)

namespace Plan

/-- The arms in the order they are built, each with its start and scope. A case of a switch that
    is where the switch goes on is nothing to build. -/
def arms : Plan → List (Option (Nat × Scope))
  | .straight .. => []
  | .loop _ header inside _ => [some (inside, ⟨some header, some header⟩)]
  | .guarded _ _ _ arm scope _ => [some (arm, scope)]
  | .forked _ _ _ first second scope _ => [some (first, scope), some (second, scope)]
  | .switched _ _ cases default scope follow =>
    (cases.map Prod.snd ++ [default]).map fun n =>
      if follow = some n then none else some (n, scope)

def follow? : Plan → Option Nat
  | .straight _ follow => follow
  | .loop _ _ _ outside => some outside
  | .guarded _ _ _ _ _ follow => some follow
  | .forked _ _ _ _ _ _ follow => follow
  | .switched _ _ _ _ _ follow => follow

def assemble : Plan → List (List Piece) → List Piece
  | .straight statements _, _ => Tree.sequence statements
  | .loop condition _ _ _, bodies => [.loop condition (Tree.ofPieces (bodies.headD []))]
  | .guarded statements test negated _ _ _, bodies =>
    Tree.sequence statements ++
      [.choice [(⟨[], test, negated⟩, Tree.ofPieces (bodies.headD []))] none]
  | .forked statements test negated _ _ _ _, bodies =>
    Tree.sequence statements ++
      [Tree.collapse [(⟨[], test, negated⟩, Tree.ofPieces (bodies.headD []))]
        (bodies.getLastD [])]
  | .switched statements expression cases _ _ _, bodies =>
    Tree.sequence statements ++
      [.switch expression ((cases.map Prod.fst).zip (bodies.dropLast.map Tree.ofPieces))
        (match bodies.getLastD [] with
          | [] => none
          | ps => some ps)]

end Plan

namespace Layout

variable (l : Layout)

def mergePoint? (n : Nat) : Option Nat := (l.immediatePostDominator? n).map l.graph.forward

def reaches (start target : Nat) (scope : Scope) : Bool :=
  (l.digraph.reachable start scope.endsAt).has target

def escapes (start : Nat) (scope : Scope) : Bool :=
  [scope.stop, scope.header].any fun e => e.any fun t => l.reaches start t scope

/-- A plan for a loop header, whose test must have one way in and one way out. -/
def planLoop (placed : Marks) (b : Block) : Except Obstacle (Marks × Plan) :=
  match b.exit with
  | .tests condition taken fallthrough =>
    let inLoop := l.digraph.naturalLoop b.index (l.latches b.index)
    let (placed, t) := l.testOf placed .free b.index condition taken fallthrough
    let prelude := b.statements ++ t.prelude
    match inLoop.has t.taken, inLoop.has t.fallthrough with
    | true, false =>
      .ok (placed, .loop ⟨prelude, t.expression, false⟩ b.index t.taken t.fallthrough)
    | false, true =>
      .ok (placed, .loop ⟨prelude, t.expression, true⟩ b.index t.fallthrough t.taken)
    | _, _ => .error (.loopWithoutExit b.index)
  | _ => .error (.loopWithoutTest b.index)

/-- One of two arms that control does not leave, neither to the other arm nor out of the scope,
    with the other one. -/
def guardClause? (first second : Nat) (scope : Scope) : Option (Nat × Nat) :=
  [(first, second), (second, first)].find? fun a =>
    !l.reaches a.1 a.2 scope && !l.escapes a.1 scope

/-- A plan for a branch. An arm that is the merge point itself is left out. -/
def planBranch (placed : Marks) (b : Block) (condition : Expr) (taken fallthrough : Nat)
    (scope : Scope) : Marks × Plan :=
  let (placed, t) := l.testOf placed scope b.index condition taken fallthrough
  let statements := b.statements ++ t.prelude
  let first := min t.taken t.fallthrough
  let second := max t.taken t.fallthrough
  let guarded (arm rest : Nat) : Plan :=
    .guarded statements t.expression (arm == t.fallthrough) arm (scope.upTo rest) rest
  let forked (scope : Scope) (follow : Option Nat) : Plan :=
    .forked statements t.expression (first == t.fallthrough) first second scope follow
  let plan :=
    match l.mergePoint? b.index with
    | some merge =>
      if merge = t.fallthrough then guarded t.taken merge
      else if merge = t.taken then guarded t.fallthrough merge
      else forked (scope.upTo merge) (some merge)
    | none =>
      match l.guardClause? first second scope with
      | some (arm, rest) => guarded arm rest
      | none => forked scope none
  (placed, plan)

/-- The blocks that control from `n` passes on every way out, nearest first, inside the scope. -/
def postDominatorChain (scope : Scope) : (budget : Nat) → List Nat → Nat → List Nat
  | 0, chain, _ => chain
  | budget + 1, chain, n =>
    if scope.endsAt n || chain.contains n then chain
    else
      match l.mergePoint? n with
      | some m => postDominatorChain scope budget (chain ++ [n]) m
      | none => chain ++ [n]

/-- Where a switch goes on when its arms do not all meet: the nearest block that most arms pass
    on every way out, at least two of them, if no other arm reaches it. -/
def commonTail? (targets : List Nat) (scope : Scope) : Option Nat :=
  let chains := targets.map (l.postDominatorChain scope (l.graph.size + 1) [])
  let count (n : Nat) : Nat := chains.countP fun chain => chain.contains n
  let best := (chains.flatten.map count).max?.getD 0
  if best < 2 then none
  else
    match chains.flatten.find? fun n => count n == best with
    | none => none
    | some tail =>
      if (targets.zip chains).all fun a => a.2.contains tail || !l.reaches a.1 tail scope then
        some tail
      else none

/-- The cases of a switch by target, in program order. -/
def groupCases (cases : List (Int32 × Nat)) : List (List Int32 × Nat) :=
  let cases := cases.map fun c => (c.1, l.graph.forward c.2)
  let targets := (List.range l.graph.size).filter fun n => cases.any fun c => c.2 == n
  targets.map fun n => ((cases.filter fun c => c.2 == n).map Prod.fst, n)

def planSwitch (b : Block) (expression : Expr) (cases : List (Int32 × Nat)) (default : Nat)
    (scope : Scope) : Plan :=
  let groups := l.groupCases cases
  let default := l.graph.forward default
  let merge := (l.mergePoint? b.index).or (l.commonTail? (groups.map Prod.snd ++ [default]) scope)
  .switched b.statements expression groups default (scope.upTo (merge.or scope.stop)) merge

def plan (placed : Marks) (b : Block) (scope : Scope) : Except Obstacle (Marks × Plan) :=
  if l.isLoopHeader b.index then l.planLoop placed b
  else
    match b.exit with
    | .tests condition taken fallthrough =>
      .ok (l.planBranch placed b condition taken fallthrough scope)
    | .dispatches expression cases default =>
      .ok (placed, l.planSwitch b expression cases default scope)
    | .jumps target => .ok (placed, .straight b.statements (some target))
    | .falls next => .ok (placed, .straight b.statements next)
    | .returns => .ok (placed, .straight b.statements none)

def buildArms (build : Marks → Nat → Scope → Except Obstacle (Marks × List Piece)) :
    Marks → List (Option (Nat × Scope)) → Except Obstacle (Marks × List (List Piece))
  | placed, [] => .ok (placed, [])
  | placed, none :: rest => do
    let (placed, bodies) ← buildArms build placed rest
    return (placed, [] :: bodies)
  | placed, some (start, scope) :: rest => do
    let (placed, body) ← build placed start scope
    let (placed, bodies) ← buildArms build placed rest
    return (placed, body :: bodies)

/-- The pieces of a region, and the blocks placed after it. `budget` bounds the blocks not placed
    yet: with none left, whatever the region comes to was placed before. -/
def region : (budget : Nat) → Marks → Nat → Scope → Except Obstacle (Marks × List Piece)
  | budget, placed, start, scope =>
    let n := l.graph.forward start
    if scope.endsAt n then .ok (placed, [])
    else
      match budget, l.graph.block? n with
      | budget + 1, some b =>
        if placed.isOpen n then do
          let (placed, plan) ← l.plan (placed.mark n) b scope
          let (placed, bodies) ← buildArms (region budget) placed plan.arms
          let (placed, rest) ←
            match plan.follow? with
            | some m => region budget placed m scope
            | none => .ok (placed, [])
          return (placed, Tree.attachAll (plan.assemble bodies) rest)
        else .error (.revisited n)
      | _, _ => .error (.revisited n)

def isMissing (placed : Marks) (b : Block) : Bool :=
  !placed.has b.index && b.trampoline?.isNone && (!b.body.isEmpty || b.exit.isDecision) &&
    l.dominators.isReachable b.index

def tree : Except Obstacle Tree := do
  let (placed, pieces) ← l.region l.graph.size (.none l.graph.size) l.graph.entry .free
  match l.graph.blocks.toList.find? (l.isMissing placed) with
  | some b => .error (.unplaced b.index)
  | none => .ok (Tree.ofPieces pieces)

end Layout

def Function.tree (f : Function) : Except Failure Tree := do
  let g ← FlowGraph.ofFunction f
  (Layout.of g).tree.mapError (.unstructured f.script)

end ClientScript
