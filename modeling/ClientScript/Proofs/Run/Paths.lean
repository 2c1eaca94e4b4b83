import ClientScript.Proofs.Run.Ways

/-!
Paths through a block graph. An oracle whose answers are chosen step by step takes any path, since
what a block asks for only depends on the answers from there on. Main statement: a function either
has no block graph, for one of two reasons, or has one that shows its code, the paths through which
are the ways through the code and, where the numbers suffice, its runs.
-/
namespace ClientScript

namespace Oracle

def Alike (o o' : Oracle) (met count : Nat) : Prop :=
  ∀ m, met ≤ m → m < met + count → o.holds m = o'.holds m ∧ o.value m = o'.value m

variable {o o' : Oracle} {met a b : Nat}

theorem Alike.first (h : o.Alike o' met (a + b)) : o.Alike o' met a :=
  fun m low high => h m low (by omega)

theorem Alike.second (h : o.Alike o' met (a + b)) : o.Alike o' (met + a) b :=
  fun m low high => h m (by omega) (by omega)

theorem evaluate_congr {e : Expr} (alike : o.Alike o' met (decisions (o'.evaluate met e).2)) :
    o.evaluate met e = o'.evaluate met e := by
  have first (met : Nat) (e : Expr) (alike : o.Alike o' met (decisions [Event.tests e])) :
      o.holds met = o'.holds met :=
    (alike met (Nat.le_refl _) (by simp [decisions, Event.isDecision])).1
  fun_induction Oracle.evaluate o' met e with
  | case1 met left right results typings dot l holds ih =>
    rw [Oracle.evaluate, if_pos rfl, ih alike]
    exact if_pos holds
  | case2 met left right results typings dot l holds r ih_left ih_right =>
    rw [decisions_append] at alike
    rw [Oracle.evaluate, if_pos rfl, ih_left alike.first, if_neg holds, ih_right alike.second]
  | case3 met left right results typings dot l holds r other ih_left ih_right =>
    rw [decisions_append] at alike
    rw [Oracle.evaluate, if_neg other, if_pos rfl, ih_left alike.first, if_pos holds,
      ih_right alike.second]
  | case4 met left right results typings dot l holds other ih =>
    rw [Oracle.evaluate, if_neg other, if_pos rfl, ih alike]
    exact if_neg holds
  | case5 met opcode left right results typings dot notOr notAnd =>
    rw [Oracle.evaluate, if_neg notOr, if_neg notAnd, first met _ alike]
  | case6 met e single =>
    rw [Oracle.evaluate, first met _ alike]
    exact single

def steady (holds : Bool) (value : Int32) : Oracle := ⟨fun _ => holds, fun _ => value⟩

theorem evaluate_steady (answer : Bool) (v : Int32) (met : Nat) (e : Expr) :
    ((steady answer v).evaluate met e).1 = answer := by
  fun_induction Oracle.evaluate (steady answer v) met e with
  | case1 _ _ _ _ _ _ _ _ ih => exact ih
  | case2 _ _ _ _ _ _ _ _ _ _ ih => exact ih
  | case3 _ _ _ _ _ _ _ _ _ _ _ ih => exact ih
  | case4 _ _ _ _ _ _ _ _ _ ih => exact ih
  | case5 => rfl
  | case6 => rfl

def upTo (bound : Nat) (first second : Oracle) : Oracle where
  holds m := if m < bound then first.holds m else second.holds m
  value m := if m < bound then first.value m else second.value m

theorem alike_upTo {o₁ o₂ : Oracle} (h : o.Alike (upTo (met + a) o₁ o₂) met (a + b)) :
    o.Alike o₁ met a ∧ o.Alike o₂ (met + a) b := by
  constructor
  · intro m low high
    simpa [upTo, high] using h.first m low high
  · intro m low high
    simpa [upTo, Nat.not_lt.2 low] using h.second m low high

theorem alike_refl (o : Oracle) (met count : Nat) : o.Alike o met count := fun _ _ _ => ⟨rfl, rfl⟩

end Oracle

/-- The default of a switch none of whose numbers leads there: each has a case that leads
    elsewhere. -/
def Exit.Hides (e : Exit) (s : Nat) : Prop :=
  ∃ c cases, e = .dispatches c cases s ∧ ∀ v, ∃ n, IntMap.find v cases = some n ∧ n ≠ s

/-- Some answers make control take a way out, whatever the other answers are. -/
theorem Exit.exists_answers {e : Exit} {s : Nat} (out : s ∈ e.successors)
    (ascending : ∀ v cases default, e = .dispatches v cases default →
      cases.Pairwise fun a b => a.1 < b.1)
    (visible : ¬ e.Hides s) (met : Nat) : ∃ count o', ∀ o : Oracle, o.Alike o' met count →
      e.leadsTo o met = some s ∧ decisions (e.asks o met) = count := by
  cases e with
  | returns => simp [successors, edges] at out
  | falls next =>
    cases next with
    | none => simp [successors, edges] at out
    | some n =>
      simp only [successors, edges, List.map_cons, List.map_nil, List.mem_singleton] at out
      exact ⟨0, .steady true 0, fun o _ => ⟨by rw [out]; rfl, rfl⟩⟩
  | jumps n =>
    simp only [successors, edges, List.map_cons, List.map_nil, List.mem_singleton] at out
    exact ⟨0, .steady true 0, fun o _ => ⟨by rw [out]; rfl, rfl⟩⟩
  | tests c taken fallthrough =>
    obtain ⟨answer, same⟩ : ∃ answer : Bool, (if answer then taken else fallthrough) = s := by
      simp only [successors, edges, List.map_cons, List.map_nil, List.mem_cons, List.not_mem_nil,
        or_false] at out
      rcases out with rfl | rfl
      · exact ⟨true, rfl⟩
      · exact ⟨false, rfl⟩
    refine ⟨decisions ((Oracle.steady answer 0).evaluate met c).2, .steady answer 0,
      fun o alike => ?_⟩
    rw [leadsTo, asks, Oracle.evaluate_congr alike, Oracle.evaluate_steady, same]
    exact ⟨rfl, rfl⟩
  | dispatches c cases default =>
    obtain ⟨v, same⟩ : ∃ v, (IntMap.find v cases).getD default = s := by
      simp only [successors, edges, List.map_append, List.map_map, List.map_cons, List.map_nil,
        List.mem_append, List.mem_map, Function.comp_apply, List.mem_singleton] at out
      rcases out with ⟨⟨v, n⟩, member, rfl⟩ | rfl
      · exact ⟨v, by rw [IntMap.find_of_mem (ascending _ _ _ rfl) member]; rfl⟩
      · -- If no value leads to the default, each one has a case that leads elsewhere.
        by_contra never
        refine visible ⟨c, cases, rfl, fun v => ?_⟩
        cases chosen : IntMap.find v cases with
        | none => exact absurd ⟨v, by rw [chosen]; rfl⟩ never
        | some n => exact ⟨n, rfl, fun same => never ⟨v, by rw [chosen, same]; rfl⟩⟩
    refine ⟨1, .steady true v, fun o alike => ?_⟩
    rw [leadsTo, (alike met (Nat.le_refl _) (by omega)).2]
    exact ⟨congrArg some same, rfl⟩

namespace FlowGraph

variable {g : FlowGraph}

theorem not_hides_of_states {o : Oracle} {met j n k s : Nat} {b : Block}
    (among : [k, s] <:+: (Machine.ofBlocks g).states o j met n) (found : g.block? k = some b) :
    ¬ b.exit.Hides s := by
  induction j generalizing met n with
  | zero =>
    have short := among.length_le
    simp [Machine.states] at short
  | succ j ih =>
    cases stepped : (Machine.ofBlocks g).step o met n with
    | mk es target =>
      cases target with
      | none =>
        rw [(Machine.states_over stepped j).1] at among
        have short := among.length_le
        simp at short
      | some t =>
        rw [(Machine.states_on stepped j).1] at among
        rcases List.infix_cons_iff.1 among with first | later
        · obtain ⟨rest, starts⟩ := (Machine.ofBlocks g).states_cons o j (met + decisions es) t
          rw [starts, List.cons_prefix_cons, List.cons_prefix_cons] at first
          obtain ⟨rfl, rfl, -⟩ := first
          rw [step_blocks o met found, Prod.mk.injEq] at stepped
          rintro ⟨c, cases, exit, elsewhere⟩
          obtain ⟨m, chosen, other⟩ := elsewhere (o.value met)
          rw [exit, Exit.leadsTo, chosen] at stepped
          exact other (Option.some.inj stepped.2)
        · exact ih later

theorem exists_states (wf : g.WellFormed) {n m : Nat} {nodes : List Nat}
    (walk : Walk g.toDigraph.next n m nodes)
    (visible : ∀ k s b, [k, s] <:+: nodes → g.block? k = some b → ¬ b.exit.Hides s) (met : Nat) :
    ∃ count o', ∀ o : Oracle, o.Alike o' met count →
      (Machine.ofBlocks g).states o (nodes.length - 1) met n = nodes := by
  induction walk generalizing met with
  | one n => exact ⟨0, .steady true 0, fun _ _ => rfl⟩
  | @step n s m nodes edge rest ih =>
    obtain ⟨b, found, out⟩ := (mem_next wf).1 edge
    obtain ⟨later, rfl⟩ := rest.starts
    have shown : ¬ b.exit.Hides s :=
      visible n s b (List.prefix_append [n, s] later).isInfix found
    obtain ⟨count, o₁, leads⟩ := Exit.exists_answers out
      (fun _ _ _ exit => wf.ascending found exit) shown met
    obtain ⟨count', o₂, onward⟩ := ih (fun k s b among => visible k s b (List.infix_cons among))
      (met + count)
    refine ⟨count + count', .upTo (met + count) o₁ o₂, fun o alike => ?_⟩
    obtain ⟨first, second⟩ := Oracle.alike_upTo alike
    obtain ⟨taken, asked⟩ := leads o first
    have block := step_blocks o met found
    rw [taken] at block
    have states := (Machine.states_on block later.length).1
    rw [decisions_append, decisions_executes, Nat.zero_add, asked] at states
    have further := onward o second
    simp only [List.length_cons, Nat.add_sub_cancel] at further ⊢
    rw [states, further]

theorem next_eq_successors (wf : g.WellFormed) {n : Nat} {b : Block} (found : g.block? n = some b) :
    g.toDigraph.next n = b.exit.successors := by
  let kept (e : Nat × Nat) : Bool := e.1 == n && (e.1 < g.size && e.2 < g.size)
  let out (c : Block) : List (Nat × Nat) := c.exit.successors.map fun s => (c.index, s)
  have next : g.toDigraph.next n =
      (g.blocks.toList.flatMap fun c => (out c).filter kept).map Prod.snd := by
    rw [← List.filter_flatMap]
    simp only [toDigraph, Digraph.ofEdges, Digraph.next, edges, List.filter_filter,
      List.map_flatMap, List.map_map, out, Exit.successors]
    rfl
  have others (k : Nat) (c : Block) (at_k : g.blocks.toList[k]? = some c) (other : k ≠ n) :
      (out c).filter kept = [] := by
    have index : c.index = k := wf.index (by simpa [block?] using at_k)
    simp [out, kept, List.filter_map, index, other]
  have own : (out b).filter kept = out b := by
    refine List.filter_eq_self.2 fun e member => ?_
    obtain ⟨s, among, rfl⟩ := List.mem_map.1 member
    simp [kept, wf.index found, block_inside found, wf.successors_inside found among]
  have at_n : g.blocks.toList[n]? = some b := by simpa [block?] using found
  obtain ⟨short, here⟩ := List.getElem?_eq_some_iff.1 at_n
  have split := List.take_append_drop n g.blocks.toList
  rw [List.drop_eq_getElem_cons short, here] at split
  have before : (g.blocks.toList.take n).flatMap (fun c => (out c).filter kept) = [] := by
    refine List.flatMap_eq_nil_iff.2 fun c member => ?_
    obtain ⟨k, at_k⟩ := List.mem_iff_getElem?.1 member
    rw [List.getElem?_take] at at_k
    split at at_k
    · exact others k c at_k (by omega)
    · simp at at_k
  have behind : (g.blocks.toList.drop (n + 1)).flatMap (fun c => (out c).filter kept) = [] := by
    refine List.flatMap_eq_nil_iff.2 fun c member => ?_
    obtain ⟨k, at_k⟩ := List.mem_iff_getElem?.1 member
    rw [List.getElem?_drop] at at_k
    exact others (n + 1 + k) c at_k (by omega)
  rw [next, ← split, List.flatMap_append, List.flatMap_cons, before, behind, own]
  simp [out, Function.comp_def]

def path (g : FlowGraph) (o : Oracle) (steps : Nat) : List Nat :=
  (Machine.ofBlocks g).states o steps 0 g.entry

def IsOver (g : FlowGraph) (o : Oracle) (steps : Nat) : Prop :=
  ((Machine.ofBlocks g).run o steps 0 g.entry).2 = none

end FlowGraph

namespace Function

def visits (f : Function) (g : FlowGraph) (o : Oracle) (steps : Nat) : List Nat :=
  g.visits ((Machine.ofCode f.code.instructions).states o steps 0 f.code.instructions)

def IsOver (f : Function) (o : Oracle) (steps : Nat) : Prop :=
  ((Machine.ofCode f.code.instructions).run o steps 0 f.code.instructions).2 = none

end Function

namespace FlowGraph

/-- A graph shows the code of a function block by block, and runs of the code are paths through
    it. -/
structure Depicts (g : FlowGraph) (f : Function) : Prop where
  entries : (g.blocks.toList.map Block.entries).flatten = f.code.toList
  shaped : ∀ n b, g.block? n = some b → Block.Shaped b.entries
  edges : ∀ n b, g.block? n = some b → g.toDigraph.next n = b.exit.successors
  visited : ∀ o steps, ∃ steps', f.visits g o steps = g.path o steps' ∧
    (f.IsOver o steps ↔ g.IsOver o steps')
  followed : ∀ o steps, ∃ steps', f.visits g o steps' = g.path o steps ∧
    (f.IsOver o steps' ↔ g.IsOver o steps)
  ways : ∀ nodes, (∃ states, Way f.code.instructions f.code.instructions states ∧
    g.visits states = nodes) ↔ ∃ n, Walk g.toDigraph.next g.entry n nodes
  /-- Under an oracle only a default is never taken that none of the numbers leads to. -/
  walks : ∀ nodes, (∃ o steps, f.visits g o steps = nodes) ↔
    (∃ n, Walk g.toDigraph.next g.entry n nodes) ∧
      ∀ m s b, [m, s] <:+: nodes → g.block? m = some b → ¬ b.exit.Hides s

theorem depicts_of_ofFunction {f : Function} (h : ofFunction f = .ok g) : g.Depicts f := by
  have wf := wellFormed_of_ofFunction h
  have whole : g.codeFrom 0 = f.code.instructions := by
    rw [Chain.instructions, ← flatten_entries h, codeFrom, List.drop_zero, List.flatMap_def]
  have start : g.Inside f.code.instructions g.entry :=
    whole ▸ (ahead_start wf.nonempty).inside wf
  have visited (o : Oracle) (steps : Nat) : ∃ steps', f.visits g o steps = g.path o steps' ∧
      (f.IsOver o steps ↔ g.IsOver o steps') := by
    obtain ⟨j, abreast⟩ := exists_abreast_code wf start o 0 steps
    rw [Abreast, whole] at abreast
    exact ⟨j, abreast⟩
  have followed (o : Oracle) (steps : Nat) : ∃ steps', f.visits g o steps' = g.path o steps ∧
      (f.IsOver o steps' ↔ g.IsOver o steps) := by
    obtain ⟨k, abreast⟩ := exists_abreast_blocks wf start o 0 steps
    rw [Abreast, whole] at abreast
    exact ⟨k, abreast⟩
  have ways (nodes : List Nat) : (∃ states, Way f.code.instructions f.code.instructions states ∧
      g.visits states = nodes) ↔ ∃ n, Walk g.toDigraph.next g.entry n nodes := by
    rw [← whole] at start ⊢
    constructor
    · rintro ⟨states, way, rfl⟩
      exact walk_of_way wf way start
    · rintro ⟨n, walk⟩
      exact way_of_walk wf walk start
  refine ⟨flatten_entries h, fun n b found => wf.shaped found,
    fun n b found => next_eq_successors wf found, visited, followed, ways, fun nodes => ⟨?_, ?_⟩⟩
  · rintro ⟨o, steps, rfl⟩
    obtain ⟨j, same, -⟩ := visited o steps
    refine ⟨(ways _).1 ⟨_, way_states .., rfl⟩, ?_⟩
    rw [same]
    exact fun m s b => not_hides_of_states
  · rintro ⟨⟨n, walk⟩, visible⟩
    obtain ⟨count, o, states⟩ := exists_states wf walk visible 0
    obtain ⟨k, visits, -⟩ := followed o (nodes.length - 1)
    exact ⟨o, k, visits.trans (states o (o.alike_refl 0 count))⟩

/-- A function has no block graph if a jump finds no label in its code or the code ends in a branch
    or a switch; else it has one that depicts it. -/
theorem refused_or_depicts (f : Function) :
    ((∃ e, ofFunction f = .error e) ↔
      (∃ i ∈ f.code.instructions, ∃ l ∈ i.targets, .label l ∉ f.code.instructions) ∨
        ∃ i, f.code.instructions.getLast? = some i ∧ i.isDecision) ∧
    ∀ g, ofFunction f = .ok g → g.Depicts f :=
  ⟨ofFunction_error, fun _ => depicts_of_ofFunction⟩

end FlowGraph

end ClientScript
