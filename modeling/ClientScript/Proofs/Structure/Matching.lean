import ClientScript.Proofs.Structure.Ending

/-!
Tasks that match a block. The tasks of a region, with tasks for what comes behind it, match the
block the region starts at, provided that where control comes out of the region it is matched by
the tasks behind it. This file shows that matching passes to the parts of a region: to what
follows a block, to the arms of a decision and to the body of a loop.
-/
namespace ClientScript.Layout

variable (l : Layout)

/-- A plan for which arms keep to themselves: a switch does not go on behind an arm that comes to
    the header of the loop around, and nothing goes on behind an arm in which control can run off
    the end of the code. -/
structure Settled (plan : Plan) : Prop where
  stays : l.strays plan = false
  keeps : ∀ v b, l.graph.toDigraph.Reaches l.graph.entry v → l.graph.block? v = some b →
    b.exit = .falls none → l.drops v plan = false

inductive Matches : Nat → List Task → Prop where
  | intro {placed placed' : Marks} {start : Nat} {scope : Scope} {ps : List Piece}
      {k : List Task} (built : l.Built l.Settled placed start scope placed' ps)
      (context : l.Context scope placed placed')
      (ends : ∀ e, scope.endsAt e →
        l.graph.Through (placed.Adds placed') (l.graph.forward start) e → Matches e k)
      (off : ∀ v b, l.graph.Through (placed.Adds placed') (l.graph.forward start) v →
        scope.endsAt v = false → l.graph.block? v = some b → b.exit = .falls none → k = []) :
      Matches (l.graph.forward start) (Tree.load ps ++ k)

/-- The tasks `k` match where control comes out of the region of block `n`. -/
structure Continues (scope : Scope) (placed placed' : Marks) (n : Nat) (k : List Task) : Prop where
  ends : ∀ e, scope.endsAt e → l.graph.Through (placed.Adds placed') n e → l.Matches e k
  off : ∀ v b, l.graph.Through (placed.Adds placed') n v → scope.endsAt v = false →
    l.graph.block? v = some b → b.exit = .falls none → k = []

variable {l}

section

variable {placed placed' : Marks} {n : Nat} {b : Block} {scope : Scope} {plan : Plan}
  {marks : Nat → Marks} {body : Nat → List Piece} {rest : List Piece} {k : List Task}
  (wf : l.graph.WellFormed)
  (stage : l.Stage l.Settled placed n b scope plan marks body placed' rest)
  (context : l.Context scope placed placed') (next : l.Continues scope placed placed' n k)

include wf stage context next

theorem Stage.matches_onward {m : Nat} (follow : plan.follow? = some m)
    (way : l.graph.Through (placed.Adds placed') n (l.graph.forward m)) :
    l.Matches (l.graph.forward m) (Tree.load rest ++ k) := by
  have wider : ∀ {e}, l.graph.Through ((marks plan.arms.length).Adds placed')
      (l.graph.forward m) e → l.graph.Through (placed.Adds placed') n e :=
    fun later => way.trans (later.mono fun x added => stage.adds_onward wf added)
  refine .intro (stage.onward m follow) (stage.context_onward wf context) ?_ ?_
  · intro e at_end later
    exact next.ends e at_end (wider later)
  · intro v b later
    exact next.off v b (wider later)

theorem Stage.matches_arm (reached : l.graph.toDigraph.Reaches l.graph.entry n) {i t : Nat}
    {s : Scope} (arm : plan.arms[i]? = some (some (t, s)))
    (upTo : s = scope.upTo (plan.follow?.or scope.stop))
    (other : ∀ c inside outside, plan ≠ .loop c n inside outside) :
    l.Matches t (Tree.load (body i) ++ (Tree.load rest ++ k)) := by
  have member := List.mem_of_getElem? arm
  have built := stage.arms i t s arm
  have inner := stage.context_arm wf context arm upTo
  have same : l.graph.forward t = t :=
    works_eq (stage.planned.leads stage.found member).2 (built.plain wf inner.plain)
  have wider : ∀ {e}, l.graph.Through ((marks i).Adds (marks (i + 1))) t e →
      l.graph.Through (placed.Adds placed') n e := fun later => stage.way_arm wf arm later
  rw [← same]
  refine .intro built inner ?_ ?_
  · intro e at_end later
    rw [same] at later
    cases follow : plan.follow? with
    | none =>
      rw [(stage.final follow).2, Tree.load_nil, List.nil_append]
      rw [follow] at upTo
      have unchanged : s = scope := upTo
      exact next.ends e (unchanged ▸ at_end) (wider later)
    | some m =>
      obtain rfl := stage.settled wf context follow arm upTo other stage.good.stays later
        at_end
      have follow_eq := stage.follow_eq wf context follow arm
      have onward := stage.matches_onward wf context next follow
        (by rw [follow_eq]; exact wider later)
      rwa [follow_eq] at onward
  · intro v b later outside found falls
    rw [same] at later
    cases follow : plan.follow? with
    | none =>
      rw [(stage.final follow).2, Tree.load_nil, List.nil_append]
      rw [follow] at upTo
      have unchanged : s = scope := upTo
      exact next.off v b (wider later) (unchanged ▸ outside) found falls
    | some m =>
      have reached_v := reached.trans (FlowGraph.reaches_of_through wf (wider later))
      have inside := inner.reaches wf (stage.arm_inside wf member) later
      have dropped := drops_of_arm follow member outside inside
      exact absurd (dropped.symm.trans (stage.good.keeps v b reached_v found falls)) (by simp)

omit next in
theorem Stage.matches_body (reached : l.graph.toDigraph.Reaches l.graph.entry n)
    (plain : l.graph.Plain n) {c : Condition} {inside outside : Nat}
    (loop : plan = .loop c n inside outside) {k' : List Task} (self : l.Matches n k') :
    l.Matches inside (Tree.load (body 0) ++ k') := by
  subst loop
  have arm : (Plan.loop c n inside outside).arms[0]? =
      some (some (inside, ⟨some n, some n⟩)) := rfl
  have built := stage.arms 0 _ _ arm
  have inner := stage.context_body wf context plain rfl
  have same : l.graph.forward inside = inside :=
    works_eq (stage.planned.leads stage.found (List.mem_of_getElem? arm)).2
      (built.plain wf inner.plain)
  rw [← same]
  refine .intro built inner ?_ ?_
  · intro e at_end later
    obtain rfl : n = e := by simpa [Scope.endsAt] using at_end
    exact self
  · intro v b later outer found falls
    rw [same] at later
    have reached_v := reached.trans
      (FlowGraph.reaches_of_through wf (stage.way_arm wf arm later))
    have within := inner.reaches wf (stage.arm_inside wf (List.mem_of_getElem? arm)) later
    have dropped : l.drops v (.loop c n inside outside) :=
      drops_of_arm rfl (List.mem_of_getElem? arm) outer within
    exact absurd (dropped.symm.trans (stage.good.keeps v b reached_v found falls)) (by simp)

end

end ClientScript.Layout
