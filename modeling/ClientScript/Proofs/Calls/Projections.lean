import ClientScript.CallGraph
import Mathlib.Data.List.Nodup
import Mathlib.Tactic.Tauto

/-!
What a call graph holds is a list of scripts and a list of calls. Its nodes are the scripts, one
each, and its edges are the calls. Main statements: the calls that are found by way of a node's own
lists are those of the whole list with that caller or that callee, and an operation adds to the ends
of the two lists what they do not hold yet.
-/
namespace ClientScript

theorem eraseDups_concat {α : Type} [BEq α] [LawfulBEq α] (xs : List α) (x : α) :
    (xs ++ [x]).eraseDups = if x ∈ xs then xs.eraseDups else xs.eraseDups ++ [x] := by
  rw [List.eraseDups_append]
  split <;> rename_i known
  · simp [List.removeAll, known]
  · simp [List.removeAll, known, List.eraseDups_cons]

namespace LabelledGraph

variable {ν ε : Type} {g : LabelledGraph ν ε} {v : Nat}

theorem edge?_eq_some {e : Nat} {entry : Nat × Edge ε} :
    g.edge? e = some entry ↔ entry.1 = e ∧ g.edges[e]? = some entry.2 := by
  obtain ⟨n, edge⟩ := entry
  simp only [edge?, Option.map_eq_some_iff, Prod.mk.injEq]
  constructor
  · rintro ⟨edge', found, rfl, rfl⟩
    exact ⟨rfl, found⟩
  · rintro ⟨rfl, found⟩
    exact ⟨edge, found, rfl, rfl⟩

theorem entries_numbersAt (g : LabelledGraph ν ε) (side : Edge ε → Nat) (v : Nat) :
    (numbersAt side g.edges v).filterMap g.edge? = g.numbered.filter fun e => side e.2 == v := by
  rw [numbersAt, numbered, List.filterMap_filter, List.filter_filterMap]
  refine List.filterMap_congr fun e _ => ?_
  cases found : g.edges[e]? with
  | none => simp [edge?, found]
  | some edge => simp [edge?, found, Option.filter]

theorem outgoing_eq (g : LabelledGraph ν ε) (v : Nat) :
    g.outgoing v = g.numbered.filter fun e => e.2.source == v := by
  rw [outgoing, g.leaves.numbers, entries_numbersAt]

theorem incoming_eq (g : LabelledGraph ν ε) (v : Nat) :
    g.incoming v = g.numbered.filter fun e => e.2.target == v := by
  rw [incoming, g.enters.numbers, entries_numbersAt]

theorem edge_of_numbered {entry : Nat × Edge ε} (member : entry ∈ g.numbered) :
    entry.2 ∈ g.edges := by
  obtain ⟨e, -, found⟩ := List.mem_filterMap.1 member
  exact Array.mem_of_getElem? (edge?_eq_some.1 found).2

theorem numbered_push {g' : LabelledGraph ν ε} {edge : Edge ε}
    (pushed : g'.edges = g.edges.push edge) :
    g'.numbered = g.numbered ++ [(g.edges.size, edge)] := by
  have old : ∀ e ∈ List.range g.edges.size, g'.edge? e = g.edge? e := by
    intro e inside
    have inside := List.mem_range.1 inside
    rw [edge?, edge?, pushed, Array.getElem?_push_lt inside, Array.getElem?_eq_getElem inside]
  rw [numbered, pushed, Array.size_push, List.range_succ, List.filterMap_append,
    List.filterMap_congr old]
  simp [numbered, edge?, pushed]

theorem map_numbered (g : LabelledGraph ν ε) : g.numbered.map Prod.snd = g.edges.toList := by
  have slots : (List.range g.edges.size).map (g.edges[·]?) = g.edges.toList.map some := by
    refine List.ext_getElem (by simp) fun e here _ => ?_
    have inside : e < g.edges.size := by simpa using here
    simp [inside]
  calc
    g.numbered.map Prod.snd = ((List.range g.edges.size).map (g.edges[·]?)).filterMap id := by
      rw [numbered, List.map_filterMap, List.filterMap_map]
      refine List.filterMap_congr fun e _ => ?_
      rw [edge?, Option.map_map]
      exact Option.map_id' ..
    _ = g.edges.toList := by rw [slots, List.filterMap_map]; simp

theorem length_entries (g : LabelledGraph ν ε) (side : Edge ε → Nat) (v : Nat) :
    ((numbersAt side g.edges v).filterMap g.edge?).length = (numbersAt side g.edges v).length := by
  refine List.filterMap_length_eq_length.2 fun e member => ?_
  obtain ⟨edge, found, -⟩ := mem_numbersAt.1 member
  simp [edge?, found]

theorem outDegree_eq (g : LabelledGraph ν ε) (v : Nat) : g.outDegree v = (g.outgoing v).length := by
  rw [outgoing, g.leaves.numbers, length_entries, ← g.leaves.numbers]
  rfl

theorem inDegree_eq (g : LabelledGraph ν ε) (v : Nat) : g.inDegree v = (g.incoming v).length := by
  rw [incoming, g.enters.numbers, length_entries, ← g.enters.numbers]
  rfl

end LabelledGraph

namespace CallGraph

variable {g : CallGraph} {c call : Call} {script id s : Int32} {u v : Nat}

theorem mem_scripts : s ∈ g.scripts ↔ ∃ v, g.nodes.get? s = some v := by
  simp only [scripts, Array.mem_toList_iff, g.named, Array.mem_iff_getElem?]

theorem node_unique (here : g.graph.nodes[u]? = some s) (there : g.graph.nodes[v]? = some s) :
    u = v :=
  Option.some.inj (((g.named s u).2 here).symm.trans ((g.named s v).2 there))

theorem nodup_scripts (g : CallGraph) : g.scripts.Nodup := by
  refine List.nodup_iff_getElem?_ne_getElem?.2 fun i j less inside same => ?_
  have here : g.graph.nodes[j]? = some (g.scripts[j]) := by simp [scripts]
  simp only [scripts, Array.getElem?_toList] at same
  exact absurd (node_unique (same.trans here) here) (Nat.ne_of_lt less)

theorem scripts_mention (g : CallGraph) (script : Int32) :
    (g.mention script).scripts =
      if script ∈ g.scripts then g.scripts else g.scripts ++ [script] := by
  rw [mention]
  cases known : g.nodes.get? script with
  | some v => rw [node_known known, if_pos (mem_scripts.2 ⟨v, known⟩)]
  | none =>
    rw [node_new known, if_neg (by simp [mem_scripts, known])]
    simp [scripts, LabelledGraph.addNode]

theorem mem_scripts_mention : s ∈ (g.mention script).scripts ↔ s ∈ g.scripts ∨ s = script := by
  rw [scripts_mention]
  split
  · rename_i known
    constructor
    · exact .inl
    · rintro (old | rfl)
      · exact old
      · exact known
  · simp

theorem calls_empty : empty.calls = [] := rfl

theorem call?_eq_some {e : LabelledGraph.Edge Trigger} : g.call? e = some c ↔
    g.graph.nodes[e.source]? = some c.caller ∧ g.graph.nodes[e.target]? = some c.callee ∧
      e.data = c.trigger := by
  obtain ⟨caller, callee, trigger⟩ := c
  simp only [call?, bind, pure, Option.bind_eq_some_iff, Option.some.injEq, Call.mk.injEq]
  constructor
  · rintro ⟨a, source, b, target, rfl, rfl, rfl⟩
    exact ⟨source, target, rfl⟩
  · rintro ⟨source, target, same⟩
    exact ⟨caller, source, callee, target, rfl, rfl, same⟩

theorem exists_call {e : LabelledGraph.Edge Trigger} (member : e ∈ g.graph.edges) :
    ∃ c, g.call? e = some c := by
  obtain ⟨source, target⟩ := g.graph.inside e member
  exact ⟨⟨_, _, _⟩, call?_eq_some.2
    ⟨Array.getElem?_eq_getElem source, Array.getElem?_eq_getElem target, rfl⟩⟩

theorem end_iff (known : g.nodes.get? id = some v) (here : g.graph.nodes[u]? = some s) :
    u = v ↔ s = id := by
  constructor
  · rintro rfl
    exact Option.some.inj (here.symm.trans ((g.named id u).1 known))
  · rintro rfl
    exact node_unique here ((g.named s v).1 known)

/-- The edges with a script at one end are the calls with that script at that end. -/
theorem filter_calls (g : CallGraph) (id : Int32) {side : LabelledGraph.Edge Trigger → Nat}
    {script : Call → Int32}
    (holds : ∀ e c, g.call? e = some c → g.graph.nodes[side e]? = some (script c)) :
    (match g.nodes.get? id with
      | some v => (g.graph.numbered.filter fun e => side e.2 == v).filterMap fun e => g.call? e.2
      | none => []) = g.calls.filter fun c => script c == id := by
  cases known : g.nodes.get? id with
  | some v =>
    dsimp only
    rw [calls, List.filterMap_filter, List.filter_filterMap]
    refine List.filterMap_congr fun e member => ?_
    obtain ⟨c, found⟩ := exists_call (LabelledGraph.edge_of_numbered member)
    have agree : (side e.2 == v) = (script c == id) := by
      rw [Bool.eq_iff_iff, beq_iff_eq, beq_iff_eq]
      exact end_iff known (holds e.2 c found)
    rw [found, agree]
    rfl
  | none =>
    refine (List.filter_eq_nil_iff.2 fun c member => ?_).symm
    obtain ⟨e, -, found⟩ := List.mem_filterMap.1 member
    have here := (g.named _ _).2 (holds e.2 c found)
    rw [beq_iff_eq]
    rintro rfl
    simp [known] at here

theorem callsFrom_eq (g : CallGraph) (id : Int32) :
    g.callsFrom id = g.calls.filter fun c => c.caller == id := by
  simp only [callsFrom, LabelledGraph.outgoing_eq]
  exact g.filter_calls id fun e c found => (call?_eq_some.1 found).1

theorem callsTo_eq (g : CallGraph) (id : Int32) :
    g.callsTo id = g.calls.filter fun c => c.callee == id := by
  simp only [callsTo, LabelledGraph.incoming_eq]
  exact g.filter_calls id fun e c found => (call?_eq_some.1 found).2.1

theorem scripts_of_mem_calls (member : c ∈ g.calls) :
    c.caller ∈ g.scripts ∧ c.callee ∈ g.scripts := by
  obtain ⟨e, -, found⟩ := List.mem_filterMap.1 member
  obtain ⟨source, target, -⟩ := call?_eq_some.1 found
  exact ⟨mem_scripts.2 ⟨_, (g.named _ _).2 source⟩, mem_scripts.2 ⟨_, (g.named _ _).2 target⟩⟩

theorem calls_mention (g : CallGraph) (script : Int32) : (g.mention script).calls = g.calls := by
  have edges : (g.mention script).graph.edges = g.graph.edges := by
    rw [mention]
    cases known : g.nodes.get? script with
    | some v => rw [node_known known]
    | none => rw [node_new known]; rfl
  have entry : (g.mention script).graph.edge? = g.graph.edge? :=
    funext fun e => by rw [LabelledGraph.edge?, LabelledGraph.edge?, edges]
  have numbered : (g.mention script).graph.numbered = g.graph.numbered := by
    rw [LabelledGraph.numbered, LabelledGraph.numbered, edges, entry]
  rw [calls, calls, numbered]
  refine List.filterMap_congr fun e member => ?_
  obtain ⟨c, found⟩ := exists_call (LabelledGraph.edge_of_numbered member)
  obtain ⟨source, target, same⟩ := call?_eq_some.1 found
  rw [found]
  exact call?_eq_some.2 ⟨nodes_mention source script, nodes_mention target script, same⟩

theorem callsFrom_mention (g : CallGraph) (script id : Int32) :
    (g.mention script).callsFrom id = g.callsFrom id := by
  rw [callsFrom_eq, callsFrom_eq, calls_mention]

theorem isSome_findEdge? (source : g.graph.nodes[u]? = some call.caller)
    (target : g.graph.nodes[v]? = some call.callee) :
    (g.graph.findEdge? u v (· == call.trigger)).isSome ↔ call ∈ g.calls := by
  simp only [LabelledGraph.findEdge?, Option.isSome_map, List.find?_isSome, Bool.and_eq_true,
    beq_iff_eq, LabelledGraph.outgoing_eq, List.mem_filter, calls, List.mem_filterMap]
  constructor
  · rintro ⟨e, ⟨member, rfl⟩, rfl, same⟩
    exact ⟨e, member, call?_eq_some.2 ⟨source, target, same⟩⟩
  · rintro ⟨e, member, found⟩
    obtain ⟨source', target', same⟩ := call?_eq_some.1 found
    exact ⟨e, ⟨member, node_unique source' source⟩, node_unique target' target, same⟩

theorem calls_connect (source : g.graph.nodes[u]? = some call.caller)
    (target : g.graph.nodes[v]? = some call.callee) :
    (g.connect call source target).calls = g.calls ++ [call] := by
  have here : (g.connect call source target).call? ⟨u, v, call.trigger⟩ = some call :=
    call?_eq_some.2 ⟨source, target, rfl⟩
  rw [calls, LabelledGraph.numbered_push (g := g.graph) rfl, List.filterMap_append]
  simp only [List.filterMap_cons, here, List.filterMap_nil]
  rfl

abbrev mentionBoth (g : CallGraph) (call : Call) : CallGraph :=
  (g.mention call.caller).mention call.callee

theorem record_cases (g : CallGraph) (call : Call) :
    call ∈ g.calls ∧ g.record call = (false, g.mentionBoth call) ∨
    call ∉ g.calls ∧ (g.record call).1 = true ∧
      (g.record call).2.scripts = (g.mentionBoth call).scripts ∧
      (g.record call).2.calls = g.calls ++ [call] := by
  have source := nodes_mention (g.nodes_node call.caller) call.callee
  have target := (g.mention call.caller).nodes_node call.callee
  have known := isSome_findEdge? source target
  rw [calls_mention, calls_mention] at known
  by_cases found : call ∈ g.calls
  · exact .inl ⟨found, if_pos (known.2 found)⟩
  · have recorded : g.record call = (true, (g.mentionBoth call).connect call source target) :=
      if_neg (mt known.1 found)
    rw [recorded]
    refine .inr ⟨found, rfl, rfl, ?_⟩
    rw [calls_connect, calls_mention, calls_mention]

theorem record_fst (g : CallGraph) (call : Call) : (g.record call).1 = true ↔ call ∉ g.calls := by
  rcases g.record_cases call with ⟨known, recorded⟩ | ⟨new, answer, -⟩
  · simp [recorded, known]
  · simp [answer, new]

theorem calls_record (g : CallGraph) (call : Call) :
    (g.record call).2.calls = if call ∈ g.calls then g.calls else g.calls ++ [call] := by
  rcases g.record_cases call with ⟨known, recorded⟩ | ⟨new, -, -, calls⟩
  · rw [recorded, if_pos known, calls_mention, calls_mention]
  · rw [calls, if_neg new]

theorem mem_record (calls : CallGraph) (c call : Call) :
    c ∈ (calls.record call).2.calls ↔ c ∈ calls.calls ∨ c = call := by
  rw [calls_record]
  split
  · rename_i known
    constructor
    · exact .inl
    · rintro (old | rfl)
      · exact old
      · exact known
  · simp

theorem mem_scripts_record :
    s ∈ (g.record call).2.scripts ↔ s ∈ g.scripts ∨ s = call.caller ∨ s = call.callee := by
  have both : (g.record call).2.scripts = (g.mentionBoth call).scripts := by
    rcases g.record_cases call with ⟨-, recorded⟩ | ⟨-, -, scripts, -⟩
    · rw [recorded]
    · exact scripts
  rw [both, mem_scripts_mention, mem_scripts_mention, or_assoc]

theorem callsFrom_record (calls : CallGraph) (call : Call) (id : Int32) :
    (calls.record call).2.callsFrom id = if call.caller = id ∧ call ∉ calls.callsFrom id then
      calls.callsFrom id ++ [call] else calls.callsFrom id := by
  simp only [callsFrom_eq, calls_record, List.mem_filter, beq_iff_eq]
  split <;> rename_i known
  · rw [if_neg (by tauto)]
  · by_cases own : call.caller = id
    · simp [own, known]
    · simp [own, beq_false_of_ne own]

end CallGraph

end ClientScript
