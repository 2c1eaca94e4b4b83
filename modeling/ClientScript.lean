import ClientScript.CallGraph
import ClientScript.Chain
import ClientScript.Command
import ClientScript.Command.Catalogue
import ClientScript.Command.Table
import ClientScript.Effect
import ClientScript.Expr
import ClientScript.Failure
import ClientScript.Flow.Block
import ClientScript.Flow.Dot
import ClientScript.Flow.Graph
import ClientScript.Function
import ClientScript.FunctionSet
import ClientScript.Graph.Component
import ClientScript.Graph.DepthFirst
import ClientScript.Graph.Digraph
import ClientScript.Graph.Dominance
import ClientScript.Graph.Labelled
import ClientScript.Graph.Marks
import ClientScript.Graph.Search
import ClientScript.Instruction
import ClientScript.IntMap
import ClientScript.Interpreter
import ClientScript.Lift.Call
import ClientScript.Lift.Code
import ClientScript.Lift.Declared
import ClientScript.Lift.Frame
import ClientScript.Lift.Hook
import ClientScript.Lift.Jump
import ClientScript.Lift.Lookup
import ClientScript.Lift.Move
import ClientScript.Opcode
import ClientScript.Proofs.Flow.Blocks
import ClientScript.Proofs.Run.Machine
import ClientScript.Prototype
import ClientScript.Script
import ClientScript.Script.Builder
import ClientScript.Script.Corpus
import ClientScript.Structure.Region
import ClientScript.Structure.Test
import ClientScript.Structure.Tree
import ClientScript.Text.Dot
import ClientScript.Text.Hidden
import ClientScript.Text.Quoted
import ClientScript.Trigger
import ClientScript.Typing.Forest
import ClientScript.Typing.Narrowing
import ClientScript.Typing.Operation
import ClientScript.Typing.Store
import ClientScript.Value
import ClientScript.ValueType
import ClientScript.Variable
import ClientScript.Proofs.Run.Code
import ClientScript.Proofs.Run.Tree
import ClientScript.Proofs.Flow.Control
import ClientScript.Proofs.Flow.PostDominance
import ClientScript.Proofs.Run.Blocks
import ClientScript.Proofs.Structure.Building
import ClientScript.Proofs.Structure.Folding
import ClientScript.Proofs.Structure.Planning
import ClientScript.Proofs.Structure.Ending
import ClientScript.Proofs.Structure.Matching
import ClientScript.Proofs.Structure.Simulation
import ClientScript.Proofs.Structure.Preservation
import ClientScript.Proofs.Lift.Copies
import ClientScript.Proofs.Lift.Interpretation
import ClientScript.Proofs.Structure.Speculation
import ClientScript.Proofs.Structure.RunningOff
import ClientScript.Proofs.Structure.Switching
import ClientScript.Proofs.Structure.Contents
import ClientScript.Proofs.Structure.Conservation
import ClientScript.Proofs.Structure.Termination
import ClientScript.Proofs.Typing.Narrowing
import ClientScript.Proofs.Typing.Store
import ClientScript.Proofs.Typing.Facts
import ClientScript.Proofs.Typing.History
import ClientScript.Proofs.Typing.Confluence
import ClientScript.Proofs.Interpretation.Effects
import ClientScript.Proofs.Interpretation.Run
import ClientScript.Proofs.Interpretation.Order
import ClientScript.Proofs.Chain.Segment
import ClientScript.Proofs.Lift.Motion
import ClientScript.Proofs.Lift.Parts
import ClientScript.Proofs.Lift.Steps
import ClientScript.Proofs.Lift.Requests
import ClientScript.Proofs.Lift.Trace
import ClientScript.Proofs.Lift.Anchors
import ClientScript.Proofs.Lift.Definedness
import ClientScript.Proofs.Interpretation.Outcome
import ClientScript.Proofs.Interpretation.Boundaries
import ClientScript.Proofs.Interpretation.Visits
import ClientScript.Proofs.Interpretation.Depth
import ClientScript.Proofs.Interpretation.Callers
import ClientScript.Proofs.Lift.Emission
import ClientScript.Proofs.Lift.Reach
import ClientScript.Proofs.Interpretation.Stepwise
import ClientScript.Proofs.Interpretation.Kept
import ClientScript.Proofs.Interpretation.Positions
import ClientScript.Proofs.Interpretation.Recording
import ClientScript.Proofs.Typing.Independence
import ClientScript.Proofs.Interpretation.Apart
import ClientScript.Proofs.Typing.Atomicity
import ClientScript.Proofs.Lift.Linearity
import ClientScript.Proofs.Flow.Refusal
import ClientScript.Proofs.Run.Visits
import ClientScript.Proofs.Run.Paths
import ClientScript.Proofs.Lift.Jumps
import ClientScript.Proofs.Interpretation.Sources
import ClientScript.Proofs.Lift.Labels
import ClientScript.Proofs.Run.Ways
import ClientScript.Proofs.Flow.WaysOut
import ClientScript.Proofs.Flow.Loops
import ClientScript.Proofs.Chain.Removal
import ClientScript.Proofs.Chain.Walk
import ClientScript.Proofs.Chain.History
import ClientScript.Proofs.Graph.Component
import ClientScript.Proofs.Graph.DepthFirst
import ClientScript.Proofs.Lift.Agreement
import ClientScript.Proofs.Lift.AgreeingCommands
import ClientScript.Proofs.Lift.AgreeingPositions
import ClientScript.Proofs.Interpretation.WellTyped
import ClientScript.Proofs.Calls.History
import ClientScript.Proofs.Calls.Recursion
import ClientScript.Proofs.Lift.Assembly
import ClientScript.Proofs.Typing.Relaxation
import ClientScript.Proofs.Lift.Outline
import ClientScript.Proofs.Lift.Mirror
import ClientScript.Proofs.Lift.MirroredFrames
import ClientScript.Proofs.Lift.MirroredCommands
import ClientScript.Proofs.Lift.PlainSignatures
import ClientScript.Proofs.Lift.PlainCommands
import ClientScript.Proofs.Lift.Portability
import ClientScript.Proofs.Interpretation.Revisions
import ClientScript.Proofs.Flow.Circles
import ClientScript.Proofs.Text.Document
import ClientScript.Proofs.Flow.Drawing
