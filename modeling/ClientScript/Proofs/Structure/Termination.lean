import ClientScript.Proofs.Flow.PostDominance
import ClientScript.Proofs.Structure.Planning

/-!
Structuring ends. Regions are read as runs of a recursion without a bound: a region that comes to an
open block marks it, marks what it folds into its test, builds what is inside and goes on. Every
run is finite, since each call marks a block that was open; and the recursion with a budget gives
what the run gives. Main statement: on every function there is such a run, to a tree or a failure.
-/
namespace ClientScript

namespace Marks

def markAll (m : Marks) (vs : List Nat) : Marks := vs.foldl mark m

/-- Each number is open when it is its turn to be marked. -/
def Fresh : Marks → List Nat → Prop
  | _, [] => True
  | m, v :: vs => m.isOpen v ∧ (m.mark v).Fresh vs

variable {m : Marks} {u v : Nat} {us vs : List Nat}

theorem markAll_append : m.markAll (us ++ vs) = (m.markAll us).markAll vs :=
  List.foldl_append

theorem size_markAll : (m.markAll vs).bits.size = m.bits.size := by
  induction vs generalizing m with
  | nil => rfl
  | cons v vs ih => exact ih.trans (size_mark m v)

theorem Fresh.append (first : m.Fresh us) (later : (m.markAll us).Fresh vs) :
    m.Fresh (us ++ vs) := by
  induction us generalizing m with
  | nil => exact later
  | cons u us ih => exact ⟨first.1, ih first.2 later⟩

theorem Fresh.isOpen (fresh : m.Fresh vs) (member : v ∈ vs) : m.isOpen v := by
  induction vs generalizing m with
  | nil => simp at member
  | cons u vs ih =>
    rcases List.mem_cons.1 member with rfl | later
    · exact fresh.1
    · exact isOpen_of_mark (ih fresh.2 later)

theorem Fresh.nodup (fresh : m.Fresh vs) : vs.Nodup := by
  induction vs generalizing m with
  | nil => exact List.nodup_nil
  | cons v vs ih =>
    refine List.nodup_cons.2 ⟨fun again => ?_, ih fresh.2⟩
    have shut := (isOpen_iff.1 (fresh.2.isOpen again)).2
    exact shut (has_mark_self fresh.1)

theorem Fresh.openCount (fresh : m.Fresh vs) :
    (m.markAll vs).openCount + vs.length = m.openCount := by
  induction vs generalizing m with
  | nil => rfl
  | cons v vs ih =>
    have first := openCount_mark fresh.1
    have later : ((m.mark v).markAll vs).openCount + vs.length = _ := ih fresh.2
    rw [markAll, List.foldl_cons, ← markAll, List.length_cons]
    omega

theorem Fresh.length_le (fresh : m.Fresh vs) : vs.length ≤ m.bits.size := by
  have count := fresh.openCount
  have room : m.openCount ≤ m.bits.size := Array.count_le_size
  omega

end Marks

namespace FlowGraph

theorem forward_hops (g : FlowGraph) (n : Nat) : ∃ hops ≤ g.size, g.forward n = g.hop^[hops] n ∧
    (∀ i < hops, ¬ g.Plain (g.hop^[i] n)) ∧ (hops = g.size ∨ g.Plain (g.forward n)) := by
  classical
  by_cases works : ∃ k < g.size, g.Plain (g.hop^[k] n)
  · obtain ⟨k, ⟨inside, plain⟩, least⟩ := Nat.findX works
    refine ⟨k, Nat.le_of_lt inside, ?_, fun i sooner does => ?_, .inr (plain_forward plain)⟩
    · rw [forward_eq_iterate, ← Nat.sub_add_cancel (Nat.le_of_lt inside),
        Function.iterate_add_apply, iterate_hop_of_plain plain]
    · exact least i sooner ⟨Nat.lt_trans sooner inside, does⟩
  · refine ⟨g.size, Nat.le_refl _, forward_eq_iterate n, fun i inside does => ?_, .inl rfl⟩
    exact works ⟨i, inside, does⟩

end FlowGraph

inductive Placement where
  | structured (block : Nat)
  | folded (block : Nat)

def Placement.block : Placement → Nat
  | .structured n => n
  | .folded n => n

namespace Plan

def regions (plan : Plan) (scope : Scope) : List (Option (Nat × Scope)) :=
  plan.arms ++ (plan.follow?.map fun m => some (m, scope)).toList

def close (plan : Plan) (bodies : List (List Piece)) : List Piece :=
  Tree.attachAll (plan.assemble (bodies.take plan.arms.length))
    (bodies.drop plan.arms.length).flatten

end Plan

abbrev BuiltRegions := Except Obstacle (Marks × List (List Piece))

namespace BuiltRegions

def after (body : List Piece) (later : BuiltRegions) : BuiltRegions :=
  later.map fun built => (built.1, body :: built.2)

theorem after_ok {body : List Piece} {later : BuiltRegions} {placed : Marks}
    {bodies : List (List Piece)} : after body later = .ok (placed, bodies) ↔
      ∃ rest, later = .ok (placed, rest) ∧ bodies = body :: rest := by
  cases later with
  | error o => simp [after, Except.map]
  | ok built =>
    obtain ⟨marks, rest⟩ := built
    simp only [after, Except.map, Except.ok.injEq, Prod.mk.injEq]
    constructor
    · rintro ⟨rfl, rfl⟩
      exact ⟨rest, ⟨rfl, rfl⟩, rfl⟩
    · rintro ⟨_, ⟨rfl, rfl⟩, rfl⟩
      exact ⟨rfl, rfl⟩

end BuiltRegions

namespace Layout

variable (l : Layout)

/-- The loop that takes blocks into a test, run to its end: the blocks it marks, and what it
    leaves. -/
inductive Folds (scope : Scope) : Marks → List Nat → Test → List Nat → Marks → Test → Prop where
  | done {placed : Marks} {folded : List Nat} {t : Test}
      (last : l.fold? placed scope folded t = none) : Folds scope placed folded t [] placed t
  | takes {placed placed' : Marks} {folded blocks : List Nat} {t t' : Test} {f : Fold}
      (next : l.fold? placed scope folded t = some f)
      (later : Folds scope (placed.mark f.block) (folded ++ [f.block]) (extendTest t f) blocks
        placed' t') :
      Folds scope placed folded t (f.block :: blocks) placed' t'

/-- The blocks that planning a block marks, one after the other. -/
def FoldsFor (placed : Marks) (b : Block) (scope : Scope) (blocks : List Nat) : Prop :=
  match b.exit with
  | .tests c x y => ∃ placed' t, l.Folds (if l.isLoopHeader b.index then .free else scope) placed
      [b.index] ⟨[], c, l.graph.forward x, l.graph.forward y⟩ blocks placed' t
  | _ => blocks = []

section

variable {l} {placed placed' : Marks} {scope : Scope} {folded blocks : List Nat} {t t' : Test}
  {b : Block} {n : Nat}

theorem Folds.foldAll {budget : Nat} (folds : l.Folds scope placed folded t blocks placed' t')
    (enough : blocks.length ≤ budget) :
    l.foldAll scope budget placed folded t = (placed', t') := by
  induction folds generalizing budget with
  | done last =>
    cases budget with
    | zero => rfl
    | succ budget => rw [Layout.foldAll, last]
  | takes next later ih =>
    cases budget with
    | zero => simp at enough
    | succ budget =>
      rw [Layout.foldAll, next]
      exact ih (Nat.le_of_succ_le_succ enough)

theorem exists_folds (wf : l.graph.WellFormed) (scope : Scope) (placed : Marks)
    (folded : List Nat) (t : Test) : ∃ blocks placed' t',
      l.Folds scope placed folded t blocks placed' t' := by
  induction count : placed.openCount using Nat.strong_induction_on generalizing placed folded t with
  | _ count ih =>
    subst count
    cases next : l.fold? placed scope folded t with
    | none => exact ⟨[], placed, t, .done next⟩
    | some f =>
      obtain ⟨side, takes⟩ := fold?_takes wf next
      obtain ⟨blocks, placed', t', later⟩ :=
        ih _ (Marks.openCount_mark_lt takes.opened) (placed.mark f.block) (folded ++ [f.block])
          (extendTest t f) rfl
      exact ⟨f.block :: blocks, placed', t', .takes next later⟩

theorem Folds.marks (wf : l.graph.WellFormed)
    (folds : l.Folds scope placed folded t blocks placed' t') :
    placed.Fresh blocks ∧ placed' = placed.markAll blocks := by
  induction folds with
  | done last => exact ⟨trivial, rfl⟩
  | takes next later ih =>
    obtain ⟨side, takes⟩ := fold?_takes wf next
    exact ⟨⟨takes.opened, ih.1⟩, ih.2⟩

theorem Folds.testOf {c : Expr} {x y : Nat} (wf : l.graph.WellFormed)
    (size : placed.bits.size = l.graph.size)
    (folds : l.Folds scope placed [n] ⟨[], c, l.graph.forward x, l.graph.forward y⟩ blocks
      placed' t) :
    l.testOf placed scope n c x y = (placed', t) :=
  folds.foldAll (size ▸ (folds.marks wf).1.length_le)

theorem exists_foldsFor (wf : l.graph.WellFormed) (placed : Marks) (b : Block) (scope : Scope) :
    ∃ blocks, l.FoldsFor placed b scope blocks := by
  unfold FoldsFor
  split
  · obtain ⟨blocks, placed', t, folds⟩ := exists_folds wf _ placed _ _
    exact ⟨blocks, placed', t, folds⟩
  · exact ⟨[], rfl⟩

theorem FoldsFor.fresh (wf : l.graph.WellFormed) (folds : l.FoldsFor placed b scope blocks) :
    placed.Fresh blocks := by
  unfold FoldsFor at folds
  split at folds
  · obtain ⟨placed', t, folds⟩ := folds
    exact (folds.marks wf).1
  · exact folds ▸ trivial

theorem FoldsFor.marks {plan : Plan} (wf : l.graph.WellFormed)
    (size : placed.bits.size = l.graph.size) (folds : l.FoldsFor placed b scope blocks)
    (planned : l.plan placed b scope = .ok (placed', plan)) : placed' = placed.markAll blocks := by
  unfold FoldsFor at folds
  rcases marks_of_plan planned with ⟨c, x, y, exit, rfl⟩ | ⟨straight, rfl⟩
  · simp only [exit] at folds
    obtain ⟨after, t, folds⟩ := folds
    rw [folds.testOf wf size]
    exact (folds.marks wf).2
  · split at folds
    · rename_i c x y exit
      exact absurd exit (straight c x y)
    · exact folds ▸ rfl

end

/-- A region comes to an open block, which is marked; the blocks are those folded into its test. -/
structure Enters (placed : Marks) (start : Nat) (scope : Scope) (b : Block) (blocks : List Nat) :
    Prop where
  inside : scope.endsAt (l.graph.forward start) = false
  opened : placed.isOpen (l.graph.forward start)
  found : l.graph.block? (l.graph.forward start) = some b
  folds : l.FoldsFor (placed.mark (l.graph.forward start)) b scope blocks

def entered (start : Nat) (blocks : List Nat) : List Placement :=
  .structured (l.graph.forward start) :: blocks.map .folded

/-- Regions built one after the other, without a bound: the blocks marked in turn, and what comes
    of it. Before a block is structured it is marked. -/
inductive Builds : Marks → List (Option (Nat × Scope)) → List Placement → BuiltRegions → Prop where
  | nothing (placed : Marks) : Builds placed [] [] (.ok (placed, []))
  | skipped {placed : Marks} {arms : List (Option (Nat × Scope))} {trail : List Placement}
      {result : BuiltRegions} (later : Builds placed arms trail result) :
      Builds placed (none :: arms) trail (.after [] result)
  | ended {placed : Marks} {start : Nat} {scope : Scope} {arms : List (Option (Nat × Scope))}
      {trail : List Placement} {result : BuiltRegions}
      (ends : scope.endsAt (l.graph.forward start)) (later : Builds placed arms trail result) :
      Builds placed (some (start, scope) :: arms) trail (.after [] result)
  | revisited {placed : Marks} {start : Nat} {scope : Scope} {arms : List (Option (Nat × Scope))}
      (inside : scope.endsAt (l.graph.forward start) = false)
      (shut : ¬ placed.isOpen (l.graph.forward start)) :
      Builds placed (some (start, scope) :: arms) [] (.error (.revisited (l.graph.forward start)))
  | refused {placed : Marks} {start : Nat} {scope : Scope} {arms : List (Option (Nat × Scope))}
      {b : Block} {blocks : List Nat} {o : Obstacle} (enters : l.Enters placed start scope b blocks)
      (refusal : l.plan (placed.mark (l.graph.forward start)) b scope = .error o) :
      Builds placed (some (start, scope) :: arms) (l.entered start blocks) (.error o)
  | failed {placed placed' : Marks} {start : Nat} {scope : Scope}
      {arms : List (Option (Nat × Scope))} {b : Block} {blocks : List Nat} {plan : Plan}
      {inner : List Placement} {o : Obstacle} (enters : l.Enters placed start scope b blocks)
      (planned : l.plan (placed.mark (l.graph.forward start)) b scope = .ok (placed', plan))
      (failure : Builds placed' (plan.regions scope) inner (.error o)) :
      Builds placed (some (start, scope) :: arms) (l.entered start blocks ++ inner) (.error o)
  | built {placed placed' placed'' : Marks} {start : Nat} {scope : Scope}
      {arms : List (Option (Nat × Scope))} {b : Block} {blocks : List Nat} {plan : Plan}
      {inner trail : List Placement} {bodies : List (List Piece)} {result : BuiltRegions}
      (enters : l.Enters placed start scope b blocks)
      (planned : l.plan (placed.mark (l.graph.forward start)) b scope = .ok (placed', plan))
      (inside : Builds placed' (plan.regions scope) inner (.ok (placed'', bodies)))
      (later : Builds placed'' arms trail result) :
      Builds placed (some (start, scope) :: arms) (l.entered start blocks ++ (inner ++ trail))
        (.after (plan.close bodies) result)

section

variable {l} (wf : l.graph.WellFormed) {placed placed' : Marks} {start : Nat} {scope : Scope}
  {arms later : List (Option (Nat × Scope))} {b : Block} {blocks : List Nat} {plan : Plan}
  {trail : List Placement} {bodies : List (List Piece)} {result : BuiltRegions}

theorem map_block_entered :
    (l.entered start blocks).map Placement.block = l.graph.forward start :: blocks := by
  simp [entered, Function.comp_def, Placement.block]

include wf

theorem Enters.fresh (enters : l.Enters placed start scope b blocks) :
    placed.Fresh ((l.entered start blocks).map Placement.block) :=
  map_block_entered ▸ ⟨enters.opened, enters.folds.fresh wf⟩

theorem Enters.marks (enters : l.Enters placed start scope b blocks)
    (size : placed.bits.size = l.graph.size)
    (planned : l.plan (placed.mark (l.graph.forward start)) b scope = .ok (placed', plan)) :
    placed' = placed.markAll ((l.entered start blocks).map Placement.block) := by
  have after := enters.folds.marks wf (by rw [Marks.size_mark, size]) planned
  rw [map_block_entered]
  exact after

theorem Builds.marks (builds : l.Builds placed arms trail result)
    (size : placed.bits.size = l.graph.size) :
    placed.Fresh (trail.map Placement.block) ∧ ∀ placed' bodies, result = .ok (placed', bodies) →
      placed' = placed.markAll (trail.map Placement.block) := by
  induction builds with
  | nothing placed => exact ⟨trivial, by rintro _ _ ⟨⟩; rfl⟩
  | skipped later ih | ended ends later ih =>
    refine ⟨(ih size).1, fun placed' bodies same => ?_⟩
    obtain ⟨rest, ok, -⟩ := BuiltRegions.after_ok.1 same
    exact (ih size).2 placed' rest ok
  | revisited inside shut => exact ⟨trivial, by rintro _ _ ⟨⟩⟩
  | refused enters refusal => exact ⟨enters.fresh wf, by rintro _ _ ⟨⟩⟩
  | failed enters planned failure ih =>
    have after := enters.marks wf size planned
    have inner := (ih (by rw [after, Marks.size_markAll, size])).1
    rw [List.map_append]
    exact ⟨(enters.fresh wf).append (after ▸ inner), by rintro _ _ ⟨⟩⟩
  | built enters planned inside later ihInner ihLater =>
    have own := enters.marks wf size planned
    obtain ⟨inner, marks⟩ := ihInner (by rw [own, Marks.size_markAll, size])
    have after := marks _ _ rfl
    obtain ⟨rest, last⟩ :=
      ihLater (by rw [after, own, Marks.size_markAll, Marks.size_markAll, size])
    subst after
    subst own
    rw [List.map_append, List.map_append]
    refine ⟨(enters.fresh wf).append (inner.append rest), fun placed' bodies same => ?_⟩
    obtain ⟨others, ok, -⟩ := BuiltRegions.after_ok.1 same
    rw [last placed' others ok, Marks.markAll_append, Marks.markAll_append]

theorem Builds.openCount_le (builds : l.Builds placed arms trail (.ok (placed', bodies)))
    (size : placed.bits.size = l.graph.size) :
    placed'.bits.size = l.graph.size ∧ placed'.openCount ≤ placed.openCount := by
  obtain ⟨fresh, marks⟩ := builds.marks wf size
  have count := fresh.openCount
  rw [← marks placed' bodies rfl] at count
  exact ⟨by rw [marks placed' bodies rfl, Marks.size_markAll, size], by omega⟩

theorem Enters.openCount_lt (enters : l.Enters placed start scope b blocks)
    (size : placed.bits.size = l.graph.size)
    (planned : l.plan (placed.mark (l.graph.forward start)) b scope = .ok (placed', plan)) :
    placed'.bits.size = l.graph.size ∧ placed'.openCount < placed.openCount := by
  have count := (enters.fresh wf).openCount
  rw [← enters.marks wf size planned, map_block_entered, List.length_cons] at count
  exact ⟨by rw [enters.marks wf size planned, Marks.size_markAll, size], by omega⟩

theorem exists_enters (inside : scope.endsAt (l.graph.forward start) = false)
    (opened : placed.isOpen (l.graph.forward start)) (size : placed.bits.size = l.graph.size) :
    ∃ b blocks, l.Enters placed start scope b blocks := by
  have known : l.graph.forward start < l.graph.size := size ▸ (Marks.isOpen_iff.1 opened).1
  obtain ⟨b, found⟩ : ∃ b, l.graph.block? (l.graph.forward start) = some b :=
    ⟨_, Array.getElem?_eq_getElem known⟩
  obtain ⟨blocks, folds⟩ := exists_foldsFor wf (placed.mark (l.graph.forward start)) b scope
  exact ⟨b, blocks, inside, opened, found, folds⟩

/-- Every construction comes to an end: by the number of open blocks, and of arms to build. -/
theorem exists_builds (placed : Marks) (arms : List (Option (Nat × Scope)))
    (size : placed.bits.size = l.graph.size) :
    ∃ trail result, l.Builds placed arms trail result := by
  induction count : placed.openCount using Nat.strong_induction_on generalizing placed arms with
  | _ count fewer =>
  induction arms with
  | nil => exact ⟨[], _, .nothing placed⟩
  | cons arm arms ih =>
    -- this run for the rest serves only where nothing is marked before it
    obtain ⟨trail, result, later⟩ := ih
    cases arm with
    | none => exact ⟨_, _, .skipped later⟩
    | some arm =>
      obtain ⟨start, scope⟩ := arm
      cases inside : scope.endsAt (l.graph.forward start) with
      | true => exact ⟨_, _, .ended inside later⟩
      | false =>
        by_cases opened : placed.isOpen (l.graph.forward start)
        · obtain ⟨b, blocks, enters⟩ := exists_enters wf inside opened size
          cases planned : l.plan (placed.mark (l.graph.forward start)) b scope with
          | error o => exact ⟨_, _, .refused enters planned⟩
          | ok made =>
            obtain ⟨placed', plan⟩ := made
            obtain ⟨size', less⟩ := enters.openCount_lt wf size planned
            obtain ⟨inner, outcome, within⟩ :=
              fewer _ (count ▸ less) placed' (plan.regions scope) size' rfl
            cases outcome with
            | error o => exact ⟨_, _, .failed enters planned within⟩
            | ok done =>
              obtain ⟨placed'', bodies⟩ := done
              obtain ⟨size'', le⟩ := within.openCount_le wf size'
              obtain ⟨trail, result, later⟩ :=
                fewer _ (count ▸ Nat.lt_of_le_of_lt le less) placed'' arms size'' rfl
              exact ⟨_, _, .built enters planned within later⟩
        · exact ⟨_, _, .revisited inside opened⟩

omit wf in
theorem buildArms_none {build : Marks → Nat → Scope → Except Obstacle (Marks × List Piece)} :
    buildArms build placed (none :: arms) =
      BuiltRegions.after [] (buildArms build placed arms) := by
  simp only [buildArms, BuiltRegions.after, bind, pure, Except.pure]
  cases buildArms build placed arms <;> rfl

omit wf in
theorem buildArms_some {build : Marks → Nat → Scope → Except Obstacle (Marks × List Piece)} :
    buildArms build placed (some (start, scope) :: arms) =
      (build placed start scope).bind fun own =>
        BuiltRegions.after own.2 (buildArms build own.1 arms) := by
  simp only [buildArms, BuiltRegions.after, bind, pure, Except.pure]
  cases build placed start scope with
  | error o => rfl
  | ok own => cases buildArms build own.1 arms <;> rfl

omit wf in
theorem buildArms_append {build : Marks → Nat → Scope → Except Obstacle (Marks × List Piece)} :
    buildArms build placed (arms ++ later) = (buildArms build placed arms).bind fun first =>
      (buildArms build first.1 later).map fun rest => (rest.1, first.2 ++ rest.2) := by
  induction arms generalizing placed with
  | nil =>
    change buildArms build placed later = (buildArms build placed later).map _
    cases buildArms build placed later <;> rfl
  | cons arm arms ih =>
    have first (body : List Piece) (placed : Marks) :
        BuiltRegions.after body (buildArms build placed (arms ++ later)) =
          (BuiltRegions.after body (buildArms build placed arms)).bind fun first =>
            (buildArms build first.1 later).map fun rest => (rest.1, first.2 ++ rest.2) := by
      rw [ih]
      cases buildArms build placed arms with
      | error o => rfl
      | ok first =>
        change BuiltRegions.after body ((buildArms build first.1 later).map _) =
          (buildArms build first.1 later).map _
        cases buildArms build first.1 later <;> rfl
    cases arm with
    | none => rw [List.cons_append, buildArms_none, buildArms_none, first]
    | some arm =>
      rw [List.cons_append, buildArms_some, buildArms_some]
      cases build placed arm.1 arm.2 with
      | error o => rfl
      | ok own => exact first own.2 own.1

omit wf in
theorem length_buildArms {build : Marks → Nat → Scope → Except Obstacle (Marks × List Piece)}
    (h : buildArms build placed arms = .ok (placed', bodies)) : bodies.length = arms.length := by
  obtain ⟨marks, body, -, -, rfl, -⟩ :=
    @buildArms_ok (fun _ => True) build (fun _ _ _ => []) arms placed placed' bodies h
      fun _ _ => trivial
  simp

omit wf in
theorem region_enters {budget : Nat} (enters : l.Enters placed start scope b blocks) :
    l.region (budget + 1) placed start scope =
      (l.plan (placed.mark (l.graph.forward start)) b scope).bind fun planned =>
        (buildArms (l.region budget) planned.1 (planned.2.regions scope)).map fun built =>
          (built.1, planned.2.close built.2) := by
  unfold region
  simp only [enters.inside, enters.found, enters.opened, Bool.false_eq_true, if_false, if_true,
    bind, pure, Except.pure]
  cases l.plan (placed.mark (l.graph.forward start)) b scope with
  | error o => rfl
  | ok planned =>
    obtain ⟨marks, plan⟩ := planned
    simp only [Except.bind, Plan.regions, buildArms_append]
    cases arms : buildArms (l.region budget) marks plan.arms with
    | error o => rfl
    | ok first =>
      have length : first.2.length = plan.arms.length := length_buildArms arms
      simp only [Plan.close]
      cases plan.follow? with
      | none => simp [buildArms, Except.map, ← length]
      | some m =>
        simp only [Option.map_some, Option.toList_some, buildArms, bind, pure, Except.pure]
        cases l.region budget first.1 m scope with
        | error o => rfl
        | ok rest => simp [Except.bind, Except.map, ← length]

omit wf in
theorem region_ended {budget : Nat} (ends : scope.endsAt (l.graph.forward start)) :
    l.region budget placed start scope = .ok (placed, []) := by
  unfold region
  simp only [ends, if_true]

omit wf in
theorem region_shut {budget : Nat} (inside : scope.endsAt (l.graph.forward start) = false)
    (shut : ¬ placed.isOpen (l.graph.forward start)) :
    l.region budget placed start scope = .error (.revisited (l.graph.forward start)) := by
  unfold region
  simp only [inside, Bool.false_eq_true, if_false, shut]
  split <;> rfl

/-- The recursion with a budget gives what the run gives, if the budget is not less than the number
    of open blocks. -/
theorem Builds.buildArms {budget : Nat} (builds : l.Builds placed arms trail result)
    (size : placed.bits.size = l.graph.size) (enough : placed.openCount ≤ budget) :
    Layout.buildArms (l.region budget) placed arms = result := by
  induction builds generalizing budget with
  | nothing placed => rfl
  | skipped later ih => rw [buildArms_none, ih size enough]
  | ended ends later ih =>
    rw [buildArms_some, region_ended ends, Except.bind, ih size enough]
  | revisited inside shut =>
    rw [buildArms_some, region_shut inside shut]
    rfl
  | refused enters refusal =>
    have some_open := Marks.openCount_mark_lt enters.opened
    obtain ⟨fewer, rfl⟩ : ∃ fewer, budget = fewer + 1 := ⟨budget - 1, by omega⟩
    rw [buildArms_some, region_enters enters, refusal]
    rfl
  | failed enters planned failure ih =>
    -- the marked block pays for the unit of the budget that going inside takes
    obtain ⟨size', less⟩ := enters.openCount_lt wf size planned
    obtain ⟨fewer, rfl⟩ : ∃ fewer, budget = fewer + 1 := ⟨budget - 1, by omega⟩
    rw [buildArms_some, region_enters enters, planned, Except.bind, ih size' (by omega)]
    rfl
  | built enters planned inside later ihInner ihLater =>
    obtain ⟨size', less⟩ := enters.openCount_lt wf size planned
    obtain ⟨size'', le⟩ := inside.openCount_le wf size'
    obtain ⟨fewer, rfl⟩ : ∃ fewer, budget = fewer + 1 := ⟨budget - 1, by omega⟩
    rw [buildArms_some, region_enters enters, planned, Except.bind, ihInner size' (by omega),
      Except.map, Except.bind, ihLater size'' (by omega)]

theorem Builds.unique {trail' : List Placement} {result' : BuiltRegions}
    (builds : l.Builds placed arms trail result) (again : l.Builds placed arms trail' result')
    (size : placed.bits.size = l.graph.size) : result' = result :=
  (again.buildArms wf size (Nat.le_refl _)).symm.trans (builds.buildArms wf size (Nat.le_refl _))

end

inductive Collects (scope : Scope) : List Nat → Nat → List Nat → Prop where
  | stops {chain : List Nat} {n : Nat} (stop : scope.endsAt n ∨ n ∈ chain) :
      Collects scope chain n chain
  | ends {chain : List Nat} {n : Nat} (inside : scope.endsAt n = false) (fresh : n ∉ chain)
      (last : l.mergePoint? n = none) : Collects scope chain n (chain ++ [n])
  | goes {chain all : List Nat} {n m : Nat} (inside : scope.endsAt n = false) (fresh : n ∉ chain)
      (next : l.mergePoint? n = some m) (later : Collects scope (chain ++ [n]) m all) :
      Collects scope chain n all

section

variable {l} (wf : l.graph.WellFormed) {scope : Scope} {chain : List Nat} {n m : Nat}

theorem length_le_of_inside (nodup : chain.Nodup) (inside : ∀ c ∈ chain, c < l.graph.size) :
    chain.length ≤ l.graph.size := by
  have among : chain ⊆ List.range l.graph.size := fun c member => List.mem_range.2 (inside c member)
  simpa using nodup.length_le_of_subset among

include wf

theorem mergePoint_inside (start : n < l.graph.size) (merge : l.mergePoint? n = some m) :
    m < l.graph.size := by
  obtain ⟨d, nearest, rfl⟩ := Option.map_eq_some_iff.1 merge
  have reached := Digraph.way_of_reaches (reaches_postDominator wf nearest)
  exact FlowGraph.forward_inside wf (reached.inside start)

theorem collects_postDominatorChain {budget : Nat} (start : n < l.graph.size)
    (nodup : chain.Nodup) (inside : ∀ c ∈ chain, c < l.graph.size)
    (enough : l.graph.size < chain.length + budget) :
    l.Collects scope chain n (l.postDominatorChain scope budget chain n) ∧
      (l.postDominatorChain scope budget chain n).Nodup ∧
      ∀ c ∈ l.postDominatorChain scope budget chain n, c < l.graph.size := by
  induction budget generalizing chain n with
  | zero => exact absurd enough (Nat.not_lt.2 (length_le_of_inside nodup inside))
  | succ budget ih =>
    rw [postDominatorChain]
    split
    · rename_i stop
      exact ⟨.stops (by simpa using stop), nodup, inside⟩
    rename_i going
    simp only [Bool.or_eq_true, List.contains_iff_mem, not_or, Bool.not_eq_true] at going
    have longer : (chain ++ [n]).Nodup :=
      List.nodup_append.2 ⟨nodup, List.nodup_singleton n, fun c member d last same =>
        going.2 (List.mem_singleton.1 last ▸ same ▸ member)⟩
    have within : ∀ c ∈ chain ++ [n], c < l.graph.size := by
      intro c member
      rcases List.mem_append.1 member with old | new
      · exact inside c old
      · exact List.mem_singleton.1 new ▸ start
    split
    · rename_i m merge
      have fewer : l.graph.size < (chain ++ [n]).length + budget := by
        rw [List.length_append, List.length_singleton]
        omega
      obtain ⟨collects, rest⟩ := ih (mergePoint_inside wf start merge) longer within fewer
      exact ⟨.goes going.1 going.2 merge collects, rest⟩
    · rename_i last
      exact ⟨.ends going.1 going.2 last, longer, within⟩

end

def finish (built : BuiltRegions) : Except Obstacle Tree := do
  let (placed, bodies) ← built
  match l.graph.blocks.toList.find? (l.isMissing placed) with
  | some b => .error (.unplaced b.index)
  | none => .ok (Tree.ofPieces (bodies.headD []))

variable {l} in
theorem Builds.tree {trail : List Placement} {result : BuiltRegions} (wf : l.graph.WellFormed)
    (builds : l.Builds (.none l.graph.size) [some (l.graph.entry, .free)] trail result) :
    l.tree = l.finish result := by
  have whole := builds.buildArms wf (Digraph.size_none _) (Nat.le_of_eq (Marks.openCount_none _))
  rw [buildArms_some] at whole
  rw [Layout.tree, ← whole]
  cases l.region l.graph.size (.none l.graph.size) l.graph.entry .free <;> rfl

end Layout

/-- Structuring ends on every function: the block graph cannot be built, or the construction of
    regions has a run, which determines the tree or the failure. In each run every block that is
    structured and every block that is folded was open when it was marked, so there are no more of
    them than blocks. The loop that folds ends, and so do those that follow jumps and that collect
    post-dominators, which turn no more often than there are blocks. -/
theorem Function.structuring_ends (f : Function) :
    (∃ e, FlowGraph.ofFunction f = .error e ∧ f.tree = .error e) ∨
    ∃ g result, FlowGraph.ofFunction f = .ok g ∧
      f.tree = ((Layout.of g).finish result).mapError (.unstructured f.script) ∧
      (∃ trail, (Layout.of g).Builds (.none g.size) [some (g.entry, .free)] trail result) ∧
      (∀ trail result', (Layout.of g).Builds (.none g.size) [some (g.entry, .free)] trail result' →
        result' = result ∧ (Marks.none g.size).Fresh (trail.map Placement.block) ∧
        (trail.map Placement.block).Nodup ∧ (∀ p ∈ trail, p.block < g.size) ∧
        trail.length ≤ g.size) ∧
      (∀ placed scope n c x y, placed.bits.size = g.size → ∃ blocks placed' t,
        (Layout.of g).Folds scope placed [n] ⟨[], c, g.forward x, g.forward y⟩ blocks placed' t ∧
        placed.Fresh blocks ∧ (Layout.of g).testOf placed scope n c x y = (placed', t)) ∧
      (∀ n, ∃ hops ≤ g.size, g.forward n = g.hop^[hops] n ∧
        (∀ i < hops, ¬ g.Plain (g.hop^[i] n)) ∧ (hops = g.size ∨ g.Plain (g.forward n))) ∧
      ∀ scope n, n < g.size →
        (Layout.of g).Collects scope [] n
          ((Layout.of g).postDominatorChain scope (g.size + 1) [] n) ∧
        ((Layout.of g).postDominatorChain scope (g.size + 1) [] n).length ≤ g.size := by
  cases graph : FlowGraph.ofFunction f with
  | error e => exact .inl ⟨e, rfl, by rw [Function.tree, graph]; rfl⟩
  | ok g =>
    have wf : (Layout.of g).graph.WellFormed := FlowGraph.wellFormed_of_ofFunction graph
    have size : (Marks.none g.size).bits.size = (Layout.of g).graph.size := Digraph.size_none _
    obtain ⟨trail, result, builds⟩ := Layout.exists_builds wf _ [some (g.entry, .free)] size
    have tree : f.tree = ((Layout.of g).finish result).mapError (.unstructured f.script) := by
      rw [Function.tree, graph, ← builds.tree wf]
      rfl
    refine .inr ⟨g, result, rfl, tree, ⟨trail, builds⟩, fun trail' result' again => ?_,
      fun placed scope n c x y all => ?_, g.forward_hops, fun scope n inside => ?_⟩
    · obtain ⟨fresh, -⟩ := again.marks wf size
      refine ⟨builds.unique wf again size, fresh, fresh.nodup, fun p member => ?_, ?_⟩
      · exact size ▸ (Marks.isOpen_iff.1 (fresh.isOpen (List.mem_map_of_mem member))).1
      · have length := fresh.length_le
        rwa [List.length_map, size] at length
    · obtain ⟨blocks, placed', t, folds⟩ :=
        Layout.exists_folds wf scope placed [n] ⟨[], c, g.forward x, g.forward y⟩
      exact ⟨blocks, placed', t, folds, (folds.marks wf).1, folds.testOf wf all⟩
    · obtain ⟨collects, nodup, within⟩ :=
        @Layout.collects_postDominatorChain (Layout.of g) wf scope [] n (g.size + 1) inside
          List.nodup_nil (by simp) (by rw [List.length_nil, Nat.zero_add]; exact Nat.lt_succ_self _)
      exact ⟨collects, Layout.length_le_of_inside nodup within⟩

namespace Sample

/-- A branch to a return or to a block that jumps to itself, and another such block that nothing
    leads to. -/
def circling : Function :=
  ⟨0, [], .ofList [.branch (.pointer (.varp 0)) 1, .label 0, .goto 0, .label 1, .ret [], .label 2,
    .goto 2], []⟩

def circlingGraph : FlowGraph :=
  ⟨0, #[⟨0, [(0, .branch (.pointer (.varp 0)) 1)], .tests (.pointer (.varp 0)) 2 1⟩,
    ⟨1, [(1, .label 0), (2, .goto 0)], .jumps 1⟩, ⟨2, [(3, .label 1), (4, .ret [])], .returns⟩,
    ⟨3, [(5, .label 2), (6, .goto 2)], .jumps 3⟩]⟩

/-- The circle is a loop without a test: the arm that comes to it is marked and refused. -/
theorem circling_ends : FlowGraph.ofFunction circling = .ok circlingGraph ∧
    circling.tree = .error (.unstructured 0 (.loopWithoutTest 1)) ∧
    (∃ trail, (Layout.of circlingGraph).Builds (.none 4) [some (0, .free)] trail
      (.error (.loopWithoutTest 1)) ∧ trail.length ≤ 4) ∧
    (∀ i < 4, ¬ circlingGraph.Plain (circlingGraph.hop^[i] 1)) ∧ circlingGraph.forward 1 = 1 := by
  have graph : FlowGraph.ofFunction circling = .ok circlingGraph := by cbv
  have tree : circling.tree = .error (.unstructured 0 (.loopWithoutTest 1)) := by cbv
  have stays : circlingGraph.forward 1 = 1 := by cbv
  have jumping : ¬ circlingGraph.Plain 1 := by
    simp [FlowGraph.Plain, circlingGraph, FlowGraph.block?, Block.trampoline?, Block.body,
      Instruction.isStatement]
  rcases Function.structuring_ends circling with
    ⟨e, none, -⟩ | ⟨g, result, some, outcome, ⟨trail, builds⟩, each, -, follows, -⟩
  · simp [graph] at none
  obtain rfl : circlingGraph = g := Except.ok.inj (graph.symm.trans some)
  obtain ⟨-, -, -, -, short⟩ := each trail result builds
  refine ⟨graph, tree, ⟨trail, ?_, short⟩, ?_⟩
  · rw [tree] at outcome
    cases result with
    | error o =>
      obtain rfl : Obstacle.loopWithoutTest 1 = o := by
        have refused : Failure.unstructured 0 (.loopWithoutTest 1) = .unstructured 0 o :=
          Except.error.inj outcome
        exact (Failure.unstructured.inj refused).2
      exact builds
    | ok built =>
      -- nothing but a block without a place is refused after the construction
      simp only [Layout.finish, bind, Except.bind] at outcome
      split at outcome
      · simp [Except.mapError] at outcome
      · simp [Except.mapError] at outcome
  · obtain ⟨hops, -, -, jumps, all | plain⟩ := follows 1
    · exact ⟨fun i inside => jumps i (all.symm ▸ inside), stays⟩
    · rw [stays] at plain
      exact absurd plain jumping

end Sample

end ClientScript
