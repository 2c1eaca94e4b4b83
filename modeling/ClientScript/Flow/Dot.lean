import ClientScript.Flow.Graph
import ClientScript.Text.Dot

/-!
The block graph in the DOT format: one line per block with its instructions, one line per edge.
The entry is green, other final blocks red.
-/
namespace ClientScript.FlowGraph

variable (g : FlowGraph)

/-- One line of a label: `\l` ends it and keeps it to the left. -/
def labelLine (text : String) : String := Text.Dot.escape text ++ "\\l"

def isExit (b : Block) : Bool := g.exits.contains b.index

def dotTitle (b : Block) : String :=
  s!"B{b.index}" ++ (if b.index == g.entry then " (entry)" else "") ++
    (if g.isExit b then " (exit)" else "")

def dotLabel (b : Block) : String :=
  g.dotTitle b ++ "\\l" ++ String.join (b.entries.map fun e => labelLine e.2.text)

def dotStyle (b : Block) : String :=
  if b.index == g.entry then ", style=filled, fillcolor=lightgreen"
  else if g.isExit b then ", style=filled, fillcolor=lightcoral"
  else ""

def dotBlock (b : Block) : String :=
  s!"    B{b.index} [label=\"" ++ g.dotLabel b ++ "\"" ++ g.dotStyle b ++ "];\n"

def dotEdge (source target : Nat) (kind : EdgeKind) : String :=
  s!"    B{source} -> B{target} [label=\"" ++ Text.Dot.escape kind.text ++ "\"];\n"

def dotHead (title : Option String) : String :=
  "digraph CFG \x7b\n" ++
  (match title with
    | some t => "    label=\"CFG: " ++ Text.Dot.escape t ++ "\";\n"
    | none => "") ++
  "    labelloc=t;\n" ++
  "    node [shape=box, fontname=\"Courier\", fontsize=10];\n" ++
  "    edge [fontname=\"Courier\", fontsize=9];\n\n"

def toDot (title : Option String) : String :=
  dotHead title ++ String.join (g.blocks.toList.map g.dotBlock) ++ "\n" ++
    String.join (g.edges.map fun e => dotEdge e.1 e.2.1 e.2.2) ++ "\x7d\n"

end ClientScript.FlowGraph
