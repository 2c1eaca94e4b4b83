import ClientScript.Proofs.Calls.Projections
import Mathlib.Data.List.Induction
import Mathlib.Data.List.Basic

/-!
Histories of a call graph. Scripts are mentioned and calls recorded in any order, any number of
times. Main statement: the graph holds the calls of its history, each once and in the order of
first occurrence, and all that it is asked is told of these and of the scripts mentioned.
-/
namespace ClientScript.CallGraph

inductive Operation where
  | mention (script : Int32)
  | record (call : Call)

namespace Operation

def call? : Operation → Option Call
  | mention _ => none
  | record call => some call

def scripts : Operation → List Int32
  | mention script => [script]
  | record call => [call.caller, call.callee]

end Operation

def perform (g : CallGraph) : Operation → CallGraph
  | .mention script => g.mention script
  | .record call => (g.record call).2

def ofHistory (history : List Operation) : CallGraph := history.foldl perform empty

/-- The calls of a history, repeated ones included. -/
def recorded (history : List Operation) : List Call := history.filterMap Operation.call?

def mentioned (history : List Operation) : List Int32 := history.flatMap Operation.scripts

variable {g : CallGraph} {s id : Int32}

theorem ofHistory_concat (history : List Operation) (o : Operation) :
    ofHistory (history ++ [o]) = (ofHistory history).perform o := by
  rw [ofHistory, List.foldl_concat]
  rfl

theorem calls_ofHistory (history : List Operation) :
    (ofHistory history).calls = (recorded history).eraseDups := by
  induction history using List.reverseRecOn with
  | nil => rfl
  | append_singleton history o ih =>
    rw [ofHistory_concat]
    cases o with
    | mention script =>
      have same : recorded (history ++ [.mention script]) = recorded history := by
        simp [recorded, Operation.call?]
      rw [perform, calls_mention, ih, same]
    | record call =>
      have more : recorded (history ++ [.record call]) = recorded history ++ [call] := by
        simp [recorded, Operation.call?]
      rw [perform, calls_record, ih, more, eraseDups_concat]
      simp only [List.mem_eraseDups]

theorem mem_calls_ofHistory {history : List Operation} {c : Call} :
    c ∈ (ofHistory history).calls ↔ c ∈ recorded history := by
  rw [calls_ofHistory, List.mem_eraseDups]

theorem mem_scripts_ofHistory (history : List Operation) :
    s ∈ (ofHistory history).scripts ↔ s ∈ mentioned history := by
  induction history using List.reverseRecOn with
  | nil => simp [ofHistory, mentioned, scripts, empty, LabelledGraph.empty]
  | append_singleton history o ih =>
    have more : s ∈ mentioned (history ++ [o]) ↔ s ∈ mentioned history ∨ s ∈ o.scripts := by
      simp [mentioned]
    rw [ofHistory_concat, more, ← ih]
    cases o with
    | mention script => rw [perform, mem_scripts_mention, Operation.scripts, List.mem_singleton]
    | record call =>
      rw [perform, mem_scripts_record]
      simp [Operation.scripts]

theorem mem_sortedScripts : s ∈ g.sortedScripts ↔ s ∈ g.scripts := by
  rw [sortedScripts, IntMap.mem_keys_iff, Option.isSome_iff_exists, mem_scripts]

theorem countP_nodes (g : CallGraph) {p : Nat → Bool} {q : Int32 → Bool}
    (agree : ∀ v s, g.graph.nodes[v]? = some s → p v = q s) :
    (List.range g.graph.nodes.size).countP p = g.scripts.countP q := by
  have listed : g.scripts.map q = (List.range g.graph.nodes.size).map p := by
    refine List.ext_getElem (by simp [scripts]) fun v here _ => ?_
    have inside : v < g.graph.nodes.size := by simpa [scripts] using here
    simp [scripts, agree v _ (Array.getElem?_eq_getElem inside)]
  have counted := congrArg (List.countP id) listed
  rw [List.countP_map, List.countP_map] at counted
  exact counted.symm

theorem countP_scripts (g : CallGraph) (q : Int32 → Bool) :
    g.scripts.countP q = g.sortedScripts.countP q := by
  refine List.Perm.countP_eq q ?_
  refine (List.perm_ext_iff_of_nodup g.nodup_scripts ?_).2 fun s => mem_sortedScripts.symm
  exact g.nodes.keys_ascending.imp Int32.ne_of_lt

theorem filterMap_call? {edges : List (Nat × LabelledGraph.Edge Trigger)}
    (among : ∀ e ∈ edges, e.2 ∈ g.graph.edges) :
    (edges.filterMap fun e => g.call? e.2).length = edges.length := by
  refine List.filterMap_length_eq_length.2 fun e member => ?_
  obtain ⟨c, found⟩ := exists_call (among e member)
  rw [found]
  rfl

theorem inDegree_eq {v : Nat} (here : g.graph.nodes[v]? = some s) :
    g.graph.inDegree v = (g.callsTo s).length := by
  have known := (g.named s v).2 here
  have among : ∀ e ∈ g.graph.incoming v, e.2 ∈ g.graph.edges := fun e member =>
    Array.mem_of_getElem? (LabelledGraph.mem_incoming.1 member).1
  rw [LabelledGraph.inDegree_eq, callsTo, known, filterMap_call? among]

theorem outDegree_eq {v : Nat} (here : g.graph.nodes[v]? = some s) :
    g.graph.outDegree v = (g.callsFrom s).length := by
  have known := (g.named s v).2 here
  have among : ∀ e ∈ g.graph.outgoing v, e.2 ∈ g.graph.edges := fun e member =>
    Array.mem_of_getElem? (LabelledGraph.mem_outgoing.1 member).1
  rw [LabelledGraph.outDegree_eq, callsFrom, known, filterMap_call? among]

theorem entries_eq (g : CallGraph) :
    g.stats.entries = g.sortedScripts.countP fun s => g.calls.all fun c => c.callee != s := by
  refine (g.countP_nodes fun v s here => ?_).trans (g.countP_scripts _)
  rw [inDegree_eq here, callsTo_eq, Bool.eq_iff_iff]
  simp [List.filter_eq_nil_iff]

theorem leaves_eq (g : CallGraph) :
    g.stats.leaves = g.sortedScripts.countP fun s => g.calls.all fun c => c.caller != s := by
  refine (g.countP_nodes fun v s here => ?_).trans (g.countP_scripts _)
  rw [outDegree_eq here, callsFrom_eq, Bool.eq_iff_iff]
  simp [List.filter_eq_nil_iff]

theorem triggers_eq (g : CallGraph) :
    g.graph.edges.toList.map LabelledGraph.Edge.data = g.calls.map Call.trigger := by
  have each : ∀ e ∈ g.graph.numbered, (g.call? e.2).map Call.trigger = some e.2.data := by
    intro e member
    obtain ⟨c, found⟩ := exists_call (LabelledGraph.edge_of_numbered member)
    rw [found, (call?_eq_some.1 found).2.2]
    rfl
  rw [← LabelledGraph.map_numbered, List.map_map, calls, List.map_filterMap,
    List.filterMap_congr each]
  exact (congrFun List.filterMap_eq_map' _).symm

theorem countP_trigger (g : CallGraph) (p : Trigger → Bool) :
    (g.graph.edges.toList.map LabelledGraph.Edge.data).countP p =
      g.calls.countP fun c => p c.trigger := by
  rw [triggers_eq, List.countP_map]
  rfl

theorem countP_triggers (triggers : List Trigger) :
    (triggers.countP fun t => t == .proc) + (triggers.countP fun t => t == .clientScript) +
      (triggers.countP fun t => t != .proc && t != .clientScript) = triggers.length := by
  induction triggers with
  | nil => rfl
  | cons t rest ih =>
    simp only [List.countP_cons, List.length_cons]
    by_cases proc : t = .proc
    · subst proc
      simp
      omega
    · by_cases clientScript : t = .clientScript
      · subst clientScript
        simp
        omega
      · simp [proc, clientScript]
        omega

/-- What a graph tells of the calls of a history and of the scripts it mentions. -/
structure Tells (g : CallGraph) (history : List Operation) : Prop where
  isNew : ∀ call, (g.record call).1 = true ↔ call ∉ recorded history
  calls : g.calls = (recorded history).eraseDups
  callsFrom : ∀ id, g.callsFrom id = g.calls.filter fun c => c.caller == id
  callsTo : ∀ id, g.callsTo id = g.calls.filter fun c => c.callee == id
  callees : ∀ id, (g.callees id).Pairwise (· < ·) ∧
    ∀ s, s ∈ g.callees id ↔ ∃ c ∈ g.calls, c.caller = id ∧ c.callee = s
  callers : ∀ id, (g.callers id).Pairwise (· < ·) ∧
    ∀ s, s ∈ g.callers id ↔ ∃ c ∈ g.calls, c.callee = id ∧ c.caller = s
  scripts : g.sortedScripts.Pairwise (· < ·) ∧ ∀ s, s ∈ g.sortedScripts ↔ s ∈ mentioned history
  counts : g.stats.calls = g.calls.length ∧ g.stats.scripts = g.sortedScripts.length
  procs : g.stats.procs = g.calls.countP fun c => c.trigger == .proc
  clientScripts : g.stats.clientScripts = g.calls.countP fun c => c.trigger == .clientScript
  triggers : g.stats.procs + g.stats.clientScripts + g.stats.others = g.stats.calls
  entries : g.stats.entries = g.sortedScripts.countP fun s => g.calls.all fun c => c.callee != s
  leaves : g.stats.leaves = g.sortedScripts.countP fun s => g.calls.all fun c => c.caller != s

theorem length_calls (g : CallGraph) : g.stats.calls = g.calls.length := by
  have same := congrArg List.length g.triggers_eq
  rwa [List.length_map, List.length_map] at same

theorem length_scripts (g : CallGraph) : g.stats.scripts = g.sortedScripts.length := by
  have all : g.scripts.length = g.sortedScripts.length := by
    simpa using g.countP_scripts fun _ => true
  exact all

/-- A graph is asked after any history. -/
theorem tells_ofHistory (history : List Operation) : (ofHistory history).Tells history where
  isNew call := by rw [record_fst, mem_calls_ofHistory]
  calls := calls_ofHistory history
  callsFrom := callsFrom_eq _
  callsTo := callsTo_eq _
  callees id := by
    refine ⟨IntMap.sort_ascending _, fun s => ?_⟩
    simp [callees, IntMap.mem_sort, callsFrom_eq, and_assoc]
  callers id := by
    refine ⟨IntMap.sort_ascending _, fun s => ?_⟩
    simp [callers, IntMap.mem_sort, callsTo_eq, and_assoc]
  scripts := ⟨IntMap.keys_ascending _, fun s => by rw [mem_sortedScripts, mem_scripts_ofHistory]⟩
  counts := ⟨length_calls _, length_scripts _⟩
  procs := countP_trigger _ _
  clientScripts := countP_trigger _ _
  triggers := by
    refine (countP_triggers _).trans ?_
    rw [List.length_map, Array.length_toList]
    rfl
  entries := entries_eq _
  leaves := leaves_eq _

end ClientScript.CallGraph
