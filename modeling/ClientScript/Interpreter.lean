import ClientScript.CallGraph
import ClientScript.Lift.Code
import ClientScript.Typing.Store

/-!
Interpretation of a corpus. The scripts of a run share the typing store and the call graph; the
result of a script is kept, success or failure, unless it failed for the limit on nested calls.
A script performs its effects in order; entering a callee interprets it first, unless that is in
progress already. The nesting left is the recursion's measure.
-/
namespace ClientScript

structure Config where
  format : Format
  maxCallDepth : Nat
  /-- Refuse operands where a command takes none. -/
  checkOperands : Bool

def Config.default : Config := ⟨.current, 256, true⟩

def Config.ofFormat (f : Format) : Config := { Config.default with format := f }

structure Stores where
  typings : Typings
  calls : CallGraph
  results : IntMap (Except Failure Function)

def Stores.start : Stores := ⟨.empty, .empty, .empty⟩

namespace Stores

def withTypings (s : Stores) (r : Except Typing.Conflict Unit × Typings) :
    Except Failure Unit × Stores :=
  (r.1.mapError .typeConflict, { s with typings := r.2 })

def unify (s : Stores) (a b : TypeVar) : Except Failure Unit × Stores :=
  match s.typings.cell? a, s.typings.cell? b with
  | some i, some j => s.withTypings (s.typings.merge i j)
  | _, _ => (.ok (), s)

def freeze (s : Stores) (t : TypeVar) (pin : ValueType) : Except Failure Unit × Stores :=
  match s.typings.cell? t with
  | some i => s.withTypings (s.typings.freeze i pin)
  | none => (.ok (), s)

def perform (script : Int32) (enter : Int32 → Stores → Except Failure Unit × Stores)
    (s : Stores) : Effect → Except Failure Unit × Stores
  | .enter callee => enter callee s
  | .record callee trigger =>
    (.ok (), { s with calls := (s.calls.record ⟨script, callee, trigger⟩).2 })
  | .declare t stack types => (.ok (), { s with typings := s.typings.declare t stack types })
  | .results callee types => s.withTypings (s.typings.declareResults callee types)
  | .unify a b => s.unify a b
  | .freeze t pin => s.freeze t pin

def performAll (script : Int32) (enter : Int32 → Stores → Except Failure Unit × Stores)
    (s : Stores) : List Effect → Except Failure Unit × Stores
  | [] => (.ok (), s)
  | e :: rest =>
    match s.perform script enter e with
    | (.ok _, s') => s'.performAll script enter rest
    | (.error f, s') => (.error f, s')

/-- Keep a result, unless it failed for the limit on nested calls. -/
def keep (s : Stores) (script : Int32) (r : Except Failure Function) : Stores :=
  match r with
  | .error f => if f.isDepthLimit then s else { s with results := s.results.insert script r }
  | .ok _ => { s with results := s.results.insert script r }

end Stores

structure Setting where
  scripts : Corpus
  declarations : Declarations
  config : Config
  table : Table

def Setting.of (scripts : Corpus) (declarations : Declarations) (config : Config) : Setting :=
  ⟨scripts, declarations, config, .ofFormat config.format⟩

namespace Setting

def context (g : Setting) (script : Int32) (code : Script) : Context :=
  ⟨script, code, g.scripts, g.declarations, g.config.checkOperands⟩

/-- Interpret a callee for a caller. Scripts in progress are not entered again. -/
def enterWith (interpret : List Int32 → Int32 → Stores → Except Failure Function × Stores)
    (active : List Int32) (caller callee : Int32) (s : Stores) : Except Failure Unit × Stores :=
  if callee ∈ active then (.ok (), s)
  else
    match interpret active callee s with
    | (.ok _, s') => (.ok (), s')
    | (.error f, s') => (.error (.calleeFailed caller callee f), s')

def runWith (g : Setting) (enter : Int32 → Stores → Except Failure Unit × Stores)
    (script : Int32) (code : Script) (s : Stores) : Except Failure Function × Stores :=
  let t := (g.context script code).lift g.table
  match { s with calls := s.calls.mention script }.performAll script enter t.effects with
  | (.ok _, s') => (t.result, s'.keep script t.result)
  | (.error f, s') => (.error f, s'.keep script (.error f))

/-- Interpret a script inside the scripts in progress, or give its kept result. `depth` is how
    many more scripts may be in progress. -/
def interpretAt (g : Setting) :
    (depth : Nat) → List Int32 → Int32 → Stores → Except Failure Function × Stores
  | 0, _, script, s =>
    match s.results.get? script with
    | some r => (r, s)
    | none => (.error (.recursionLimit g.config.maxCallDepth), s)
  | depth + 1, active, script, s =>
    match s.results.get? script with
    | some r => (r, s)
    | none =>
      match g.scripts.get? script with
      | none => (.error (.malformed script .unknownScript), s)
      | some code =>
        g.runWith (enterWith (g.interpretAt depth) (script :: active) script) script code s

def interpret (g : Setting) (script : Int32) (s : Stores) : Except Failure Function × Stores :=
  g.interpretAt g.config.maxCallDepth [] script s

def interpretAll (g : Setting) (s : Stores) : Stores :=
  g.scripts.keys.foldl (fun s script => (g.interpret script s).2) s

end Setting

end ClientScript
