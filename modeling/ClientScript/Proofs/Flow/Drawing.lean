import ClientScript.Flow.Dot
import ClientScript.Proofs.Text.Document

/-!
Block graphs as documents. Each line that is written of a block or an edge is one statement, so no
text in the code can end a label or add a statement. Main statement: the document that a block graph
is written as tells of its blocks and edges in order, and its labels show the instructions.
-/
namespace ClientScript

open Text.Dot

theorem not_special_of_isWord {c : Char} (word : isWord c) : c ∉ special := by
  intro among
  simp only [special, List.mem_cons, List.not_mem_nil, or_false] at among
  rcases among with rfl | rfl | rfl | rfl | rfl | rfl <;> exact absurd word (by decide)

theorem isWord_digits (n : Nat) : ∀ c ∈ (toString n).toList, isWord c := by
  intro c member
  have digit := Nat.isDigit_of_mem_toDigits (b := 10) (by decide) (by decide)
    (by simpa using member)
  simp [isWord, Char.isAlphanum, digit]

theorem verbatim_digits (n : Nat) : Verbatim (toString n) := fun c member =>
  not_special_of_isWord (isWord_digits n c member)

theorem verbatim_int (n : Int) : Verbatim (toString n) := by
  cases n with
  | ofNat n => exact verbatim_digits n
  | negSucc n =>
    have minus : Verbatim "-" := verbatim_of_all rfl
    exact minus.append (verbatim_digits (n + 1))

theorem EdgeKind.verbatim_text (kind : EdgeKind) : Verbatim kind.text := by
  cases kind with
  | case value =>
    have start : Verbatim "case " := verbatim_of_all rfl
    exact start.append (verbatim_int value.toInt)
  | fallthrough | jump | taken | notTaken | default => exact verbatim_of_all rfl

def Block.name (n : Nat) : String := "B" ++ toString n

theorem Block.isWord_name (n : Nat) : ∀ c ∈ (Block.name n).toList, isWord c := by
  intro c member
  rw [Block.name, String.toList_append] at member
  rcases List.mem_append.1 member with first | digit
  · rw [List.mem_singleton.1 first]; rfl
  · exact isWord_digits n c digit

theorem Block.passes_name (n : Nat) : Passes (.word ['B']) (toString n)
    (.word (Block.name n).toList) [] := by
  simpa [Block.name] using passes_word (isWord_digits n) ['B']

theorem Block.isKind_name (n : Nat) : (Name.bare (Block.name n)).isKind = false := by
  have first (s : String) (other : s.toList.head? ≠ some 'B') : Block.name n ≠ s := by
    rintro rfl
    simp [Block.name] at other
  simp [Name.isKind, first "graph" (by decide), first "node" (by decide), first "edge" (by decide)]

namespace FlowGraph

variable (g : FlowGraph)

theorem verbatim_dotTitle (b : Block) : Verbatim (g.dotTitle b) := by
  have name : Verbatim (Block.name b.index) := fun c member =>
    not_special_of_isWord (Block.isWord_name b.index c member)
  have entry : Verbatim (if b.index == g.entry then " (entry)" else "") := by
    split <;> exact verbatim_of_all rfl
  have exit : Verbatim (if g.isExit b then " (exit)" else "") := by
    split <;> exact verbatim_of_all rfl
  exact (name.append entry).append exit

theorem dotLabel_eq (b : Block) : g.dotLabel b =
    String.join ((g.dotTitle b :: b.entries.map fun e => e.2.text).map fun s =>
      escape s ++ "\\l") := by
  rw [dotLabel, List.map_cons, List.map_map, (g.verbatim_dotTitle b).escape_eq,
    ← String.toList_inj]
  simp [String.toList_join, labelLine, Function.comp_def]

theorem quotable_dotLabel (b : Block) : Quotable (g.dotLabel b) := by
  have ending : Quotable "\\l" := fun t => by simp [Passes, run?, step?]
  rw [dotLabel_eq]
  refine quotable_join fun s member => ?_
  obtain ⟨s, -, rfl⟩ := List.mem_map.1 member
  exact (quotable_escape s).append ending

theorem lines?_dotLabel (b : Block) : lines? (g.dotLabel b) =
    some (g.dotTitle b :: b.entries.map fun e => withoutReturns e.2.text, "") := by
  rw [dotLabel_eq, lines?_join, List.map_cons, List.map_map,
    (g.verbatim_dotTitle b).withoutReturns_eq]
  rfl

def style (b : Block) : List Attribute :=
  if b.index == g.entry then
    [⟨.bare "style", .bare "filled"⟩, ⟨.bare "fillcolor", .bare "lightgreen"⟩]
  else if g.isExit b then
    [⟨.bare "style", .bare "filled"⟩, ⟨.bare "fillcolor", .bare "lightcoral"⟩]
  else []

def nodeStatement (b : Block) : Statement :=
  .node (.bare (Block.name b.index)) (⟨.bare "label", .quoted (g.dotLabel b)⟩ :: g.style b)

def edgeStatement (e : Nat × Nat × EdgeKind) : Statement :=
  .edge (.bare (Block.name e.1)) (.bare (Block.name e.2.1))
    [⟨.bare "label", .quoted (escape e.2.2.text)⟩]

def titleStatements (title : Option String) : List Statement :=
  title.toList.map fun t => .setting ⟨.bare "label", .quoted (escape ("CFG: " ++ t))⟩

def layoutStatements : List Statement :=
  [.setting ⟨.bare "labelloc", .bare "t"⟩,
    .defaults (.bare "node") [⟨.bare "shape", .bare "box"⟩, ⟨.bare "fontname", .quoted "Courier"⟩,
      ⟨.bare "fontsize", .bare "10"⟩],
    .defaults (.bare "edge") [⟨.bare "fontname", .quoted "Courier"⟩, ⟨.bare "fontsize", .bare "9"⟩]]

def document (title : Option String) : Document :=
  ⟨.bare "CFG", titleStatements title ++ (layoutStatements ++
    (g.blocks.toList.map g.nodeStatement ++ g.edges.map edgeStatement))⟩

theorem passes_label {label rest : String} {r : Reading} {ts : List Token}
    (quotable : Quotable label) (later : Passes .between rest r ts) (n : Nat) :
    Passes (.word (Block.name n).toList) (" [label=\"" ++ (label ++ ("\"" ++ rest))) r
      ([.name (.bare (Block.name n)), .mark '[', .name (.bare "label"), .mark '=',
        .name (.quoted label)] ++ ts) := by
  have opens : Passes .between " [label=\"" (.quoted [])
      [.mark '[', .name (.bare "label"), .mark '='] := rfl
  exact (opens.behind_word rfl (Block.name n)).append (quotable.passes later)

/-- What stands behind the label of a block gives it a colour and ends the statement. -/
theorem exists_style (b : Block) : ∃ ts, Reads (g.dotStyle b ++ "];\n") (ts ++ [.mark ';']) ∧
    .mark ';' ∉ ts ∧ ∀ l, attributes? (.name (.bare "label") :: .mark '=' :: .name l :: ts) =
      some (⟨.bare "label", l⟩ :: g.style b) := by
  unfold dotStyle style
  split
  · exact ⟨[.mark ',', .name (.bare "style"), .mark '=', .name (.bare "filled"), .mark ',',
      .name (.bare "fillcolor"), .mark '=', .name (.bare "lightgreen"), .mark ']'], rfl, by decide,
      fun l => rfl⟩
  · split
    · exact ⟨[.mark ',', .name (.bare "style"), .mark '=', .name (.bare "filled"), .mark ',',
        .name (.bare "fillcolor"), .mark '=', .name (.bare "lightcoral"), .mark ']'], rfl,
        by decide, fun l => rfl⟩
    · exact ⟨[.mark ']'], rfl, by decide, fun l => rfl⟩

theorem holds_dotBlock (b : Block) : Holds (g.dotBlock b) [g.nodeStatement b] := by
  obtain ⟨ts, styled, unended, attributes⟩ := g.exists_style b
  have start : Passes .between "    B" (.word ['B']) [] := rfl
  have reads := (start.append (Block.passes_name b.index)).append
    (passes_label (g.quotable_dotLabel b) styled b.index)
  have line : g.dotBlock b = "    B" ++ toString b.index ++
      (" [label=\"" ++ (g.dotLabel b ++ ("\"" ++ (g.dotStyle b ++ "];\n")))) := by
    simp only [dotBlock, String.append_assoc]
    rfl
  rw [line]
  refine holds_statement (.name (.bare (Block.name b.index)) :: .mark '[' ::
    .name (.bare "label") :: .mark '=' :: .name (.quoted (g.dotLabel b)) :: ts) reads ?_ ?_
  · simpa using unended
  · rw [statement?, attributes, Option.map_some, Block.isKind_name]
    rfl

theorem holds_dotEdge (e : Nat × Nat × EdgeKind) :
    Holds (dotEdge e.1 e.2.1 e.2.2) [edgeStatement e] := by
  obtain ⟨a, b, kind⟩ := e
  have start : Passes .between "    B" (.word ['B']) [] := rfl
  have arrow : Passes .between " -> B" (.word ['B']) [.arrow] := rfl
  have closes : Passes .between "];\n" .between [.mark ']', .mark ';'] := rfl
  have reads := ((start.append (Block.passes_name a)).append
    (arrow.behind_word rfl (Block.name a))).append
      ((Block.passes_name b).append (passes_label (quotable_escape kind.text) closes b))
  have line : dotEdge a b kind = "    B" ++ toString a ++ " -> B" ++ (toString b ++
      (" [label=\"" ++ (escape kind.text ++ ("\"" ++ "];\n")))) := by
    simp only [dotEdge, String.append_assoc]
    rfl
  rw [line]
  exact holds_statement [.name (.bare (Block.name a)), .arrow, .name (.bare (Block.name b)),
    .mark '[', .name (.bare "label"), .mark '=', .name (.quoted (escape kind.text)), .mark ']']
    reads (by simp) rfl

theorem holds_title (t : String) : Holds ("    label=\"CFG: " ++ escape t ++ "\";\n")
    (titleStatements (some t)) := by
  have opens : Passes .between "    label=\"" (.quoted []) [.name (.bare "label"), .mark '='] := rfl
  have closes : Reads ";\n" [.mark ';'] := rfl
  have reads := opens.append ((quotable_escape ("CFG: " ++ t)).passes closes)
  have line : "    label=\"CFG: " ++ escape t ++ "\";\n" =
      "    label=\"" ++ (escape ("CFG: " ++ t) ++ ("\"" ++ ";\n")) := by
    have verbatim : Verbatim "CFG: " := verbatim_of_all rfl
    have start : "    label=\"CFG: " = "    label=\"" ++ "CFG: " := rfl
    have stop : "\";\n" = "\"" ++ ";\n" := rfl
    rw [escape_append, verbatim.escape_eq, start, stop]
    simp only [String.append_assoc]
  rw [line]
  exact holds_statement [.name (.bare "label"), .mark '=',
    .name (.quoted (escape ("CFG: " ++ t)))] reads (by simp) rfl

theorem holds_layout : Holds ("    labelloc=t;\n" ++
    ("    node [shape=box, fontname=\"Courier\", fontsize=10];\n" ++
      "    edge [fontname=\"Courier\", fontsize=9];\n\n")) layoutStatements := by
  have place : Holds "    labelloc=t;\n" [_] := holds_statement [.name (.bare "labelloc"),
    .mark '=', .name (.bare "t")] rfl (by decide) rfl
  have nodes : Holds "    node [shape=box, fontname=\"Courier\", fontsize=10];\n" [_] :=
    holds_statement [.name (.bare "node"), .mark '[', .name (.bare "shape"), .mark '=',
      .name (.bare "box"), .mark ',', .name (.bare "fontname"), .mark '=',
      .name (.quoted "Courier"), .mark ',', .name (.bare "fontsize"), .mark '=',
      .name (.bare "10"), .mark ']']
      rfl (by decide) rfl
  have edges : Holds "    edge [fontname=\"Courier\", fontsize=9];\n\n" [_] :=
    holds_statement [.name (.bare "edge"), .mark '[', .name (.bare "fontname"), .mark '=',
      .name (.quoted "Courier"), .mark ',', .name (.bare "fontsize"), .mark '=', .name (.bare "9"),
      .mark ']'] rfl (by decide) rfl
  exact place.append (nodes.append edges)

theorem exists_head (title : Option String) : ∃ text, Holds text (titleStatements title) ∧
    dotHead title = "digraph CFG \x7b\n" ++ (text ++ ("    labelloc=t;\n" ++
      ("    node [shape=box, fontname=\"Courier\", fontsize=10];\n" ++
        "    edge [fontname=\"Courier\", fontsize=9];\n\n"))) := by
  cases title with
  | none =>
    refine ⟨"", holds_nothing rfl, ?_⟩
    delta dotHead
    simp only [String.append_assoc]
  | some t =>
    refine ⟨_, holds_title t, ?_⟩
    delta dotHead
    simp only [String.append_assoc]

theorem document?_toDot (title : Option String) :
    document? (g.toDot title) = some (g.document title) := by
  obtain ⟨text, titled, head⟩ := exists_head title
  have opens : Reads "digraph CFG \x7b\n"
      [.name (.bare "digraph"), .name (.bare "CFG"), .mark '\x7b'] := rfl
  have blank : Holds "\n" [] := holds_nothing rfl
  have blocks := holds_join g.holds_dotBlock g.blocks.toList
  have edges := holds_join holds_dotEdge g.edges
  have whole : Holds _ _ := titled.append (holds_layout.append (blocks.append (blank.append edges)))
  have read := whole.document?_eq opens
  rw [toDot, head]
  simpa only [document, String.append_assoc, List.nil_append] using read

theorem label?_quoted (text : String) (as : List Attribute) :
    label? (⟨.bare "label", .quoted text⟩ :: as) = lines? text := by
  simp [label?]

theorem nodes_document (title : Option String) : (g.document title).nodes =
    g.blocks.toList.map fun b => (.bare (Block.name b.index),
      ⟨.bare "label", .quoted (g.dotLabel b)⟩ :: g.style b) := by
  cases title <;> simp [Document.nodes, document, titleStatements, layoutStatements, nodeStatement,
    edgeStatement, Function.comp_def]

theorem edges_document (title : Option String) : (g.document title).edges =
    g.edges.map fun e => (.bare (Block.name e.1), .bare (Block.name e.2.1),
      [⟨.bare "label", .quoted (escape e.2.2.text)⟩]) := by
  cases title <;> simp [Document.edges, document, titleStatements, layoutStatements, nodeStatement,
    edgeStatement, Function.comp_def]

theorem settings_document (title : Option String) : (g.document title).settings =
    (title.toList.map fun t => ⟨.bare "label", .quoted (escape ("CFG: " ++ t))⟩) ++
      [⟨.bare "labelloc", .bare "t"⟩] := by
  cases title <;> simp [Document.settings, document, titleStatements, layoutStatements,
    nodeStatement, edgeStatement, Function.comp_def]

/-- A document tells of every block and edge once, in order; the label of a block shows its title
    and its instructions, each on a line of its own, and that of an edge its kind. -/
structure Draws (title : Option String) (d : Document) : Prop where
  nodes : d.nodes.map (fun v => (v.1, label? v.2)) = g.blocks.toList.map fun b =>
    (.bare (Block.name b.index),
      some (g.dotTitle b :: b.entries.map fun e => withoutReturns e.2.text, ""))
  edges : d.edges.map (fun v => (v.1, v.2.1, label? v.2.2)) = g.edges.map fun e =>
    (.bare (Block.name e.1), .bare (Block.name e.2.1), some ([], e.2.2.text))
  titled : label? d.settings = title.map fun t => ([], withoutReturns ("CFG: " ++ t))

theorem draws_document (title : Option String) : g.Draws title (g.document title) where
  nodes := by
    rw [nodes_document, List.map_map]
    refine List.map_congr_left fun b _ => ?_
    simp [label?_quoted, lines?_dotLabel]
  edges := by
    rw [edges_document, List.map_map]
    refine List.map_congr_left fun e _ => ?_
    have kind := e.2.2.verbatim_text.withoutReturns_eq
    simp [label?_quoted, lines?_escape, kind]
  titled := by
    rw [settings_document]
    cases title with
    | none => rfl
    | some t => simp [label?_quoted, lines?_escape]

end FlowGraph

end ClientScript
