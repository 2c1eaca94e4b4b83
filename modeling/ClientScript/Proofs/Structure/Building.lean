import ClientScript.Proofs.Flow.Control
import ClientScript.Structure.Region

/-!
How a region came about. A region that was built is read as a derivation: it ended at once, or a
block was planned, its arms were built one after the other and then what follows it. The blocks on
the way are listed, so that a condition can be put on their plans.
-/
namespace ClientScript

def lead {α : Type} (first : α) (later : Nat → α) : Nat → α
  | 0 => first
  | i + 1 => later i

def Marks.Adds (m m' : Marks) (x : Nat) : Prop := m'.has x ∧ ¬ m.has x

def Plan.isSwitch : Plan → Bool
  | .switched .. => true
  | _ => false

structure Visit where
  placed : Marks
  block : Block
  scope : Scope

namespace Layout

variable (l : Layout)

def armVisits (build : Marks → Nat → Scope → Except Obstacle (Marks × List Piece))
    (visits : Marks → Nat → Scope → List Visit) : Marks → List (Option (Nat × Scope)) → List Visit
  | _, [] => []
  | placed, none :: rest => armVisits build visits placed rest
  | placed, some (start, scope) :: rest =>
    visits placed start scope ++
      match build placed start scope with
      | .ok (placed, _) => armVisits build visits placed rest
      | .error _ => []

def visitsFrom : (budget : Nat) → Marks → Nat → Scope → List Visit
  | budget, placed, start, scope =>
    let n := l.graph.forward start
    match budget, l.graph.block? n with
    | budget + 1, some b =>
      if scope.endsAt n then []
      else
        ⟨placed.mark n, b, scope⟩ ::
          match l.plan (placed.mark n) b scope with
          | .error _ => []
          | .ok (placed, plan) =>
            armVisits (l.region budget) (visitsFrom budget) placed plan.arms ++
              match buildArms (l.region budget) placed plan.arms, plan.follow? with
              | .ok (placed, _), some m => visitsFrom budget placed m scope
              | _, _ => []
    | _, _ => []

def visits : List Visit := l.visitsFrom l.graph.size (.none l.graph.size) l.graph.entry .free

def planAt? (v : Visit) : Option Plan := (l.plan v.placed v.block v.scope).toOption.map (·.2)

def plans : List Plan := l.visits.filterMap l.planAt?

/-- A switch goes on at a block although one of its arms comes to the header of the loop
    around. -/
def strays (plan : Plan) : Bool :=
  plan.isSwitch && plan.follow?.any fun m => plan.arms.any fun arm => arm.any fun a =>
    a.2.header.any fun h => h != m && l.reaches a.1 h a.2

/-- A plan goes on behind an arm that control can run off the end of the code in, at `v`. -/
def drops (v : Nat) (plan : Plan) : Bool :=
  plan.follow?.isSome && plan.arms.any fun arm =>
    arm.any fun a => !a.2.endsAt v && l.reaches a.1 v a.2

/-- The region from a block on was built with plans that all satisfy `P`. The marks with number
    `i` are those before arm `i`. -/
inductive Built (P : Plan → Prop) : Marks → Nat → Scope → Marks → List Piece → Prop where
  | ended {placed : Marks} {start : Nat} {scope : Scope}
      (ends : scope.endsAt (l.graph.forward start)) : Built P placed start scope placed []
  | block {placed placed' : Marks} {start : Nat} {scope : Scope} {b : Block} {plan : Plan}
      {marks : Nat → Marks} {body : Nat → List Piece} {rest : List Piece}
      (inside : scope.endsAt (l.graph.forward start) = false)
      (found : l.graph.block? (l.graph.forward start) = some b)
      (opened : placed.isOpen (l.graph.forward start))
      (planned : l.plan (placed.mark (l.graph.forward start)) b scope = .ok (marks 0, plan))
      (good : P plan)
      (arms : ∀ i t s, plan.arms[i]? = some (some (t, s)) →
        Built P (marks i) t s (marks (i + 1)) (body i))
      (skipped : ∀ i, plan.arms[i]? = some none → marks (i + 1) = marks i ∧ body i = [])
      (onward : ∀ m, plan.follow? = some m →
        Built P (marks plan.arms.length) m scope placed' rest)
      (final : plan.follow? = none → placed' = marks plan.arms.length ∧ rest = []) :
      Built P placed start scope placed'
        (Tree.attachAll (plan.assemble ((List.range plan.arms.length).map body)) rest)

variable {l}

theorem drops_of_arm {v m t : Nat} {s : Scope} {plan : Plan} (follow : plan.follow? = some m)
    (arm : some (t, s) ∈ plan.arms) (outside : s.endsAt v = false) (reached : l.reaches t v s) :
    l.drops v plan := by
  simp only [drops, follow, Option.isSome_some, Bool.true_and, List.any_eq_true]
  exact ⟨_, arm, by simp [outside, reached]⟩

theorem buildArms_ok {P : Visit → Prop}
    {build : Marks → Nat → Scope → Except Obstacle (Marks × List Piece)}
    {visits : Marks → Nat → Scope → List Visit} {arms : List (Option (Nat × Scope))}
    {placed placed' : Marks} {bodies : List (List Piece)}
    (h : buildArms build placed arms = .ok (placed', bodies))
    (good : ∀ v ∈ armVisits build visits placed arms, P v) :
    ∃ (marks : Nat → Marks) (body : Nat → List Piece), marks 0 = placed ∧
      marks arms.length = placed' ∧ bodies = (List.range arms.length).map body ∧
      (∀ i t s, arms[i]? = some (some (t, s)) →
        build (marks i) t s = .ok (marks (i + 1), body i) ∧ ∀ v ∈ visits (marks i) t s, P v) ∧
      ∀ i, arms[i]? = some none → marks (i + 1) = marks i ∧ body i = [] := by
  induction arms generalizing placed placed' bodies with
  | nil =>
    simp only [buildArms, Except.ok.injEq, Prod.mk.injEq] at h
    obtain ⟨rfl, rfl⟩ := h
    exact ⟨fun _ => placed, fun _ => [], by simp⟩
  | cons arm arms ih =>
    cases arm with
    | none =>
      simp only [buildArms, bind, Except.bind, pure, Except.pure] at h
      split at h
      · simp at h
      · rename_i later built
        simp only [Except.ok.injEq, Prod.mk.injEq] at h
        obtain ⟨rfl, rfl⟩ := h
        obtain ⟨marks, body, start, stop, eq, each, skip⟩ := ih built good
        refine ⟨lead placed marks, lead [] body, rfl, stop,
          by simp [List.range_succ_eq_map, eq, Function.comp_def, lead], ?_, ?_⟩
        · intro i t s found
          cases i with
          | zero => simp at found
          | succ i => exact each i t s (by simpa using found)
        · intro i found
          cases i with
          | zero => exact ⟨start, rfl⟩
          | succ i => exact skip i (by simpa using found)
    | some arm =>
      obtain ⟨start, scope⟩ := arm
      simp only [buildArms, bind, Except.bind, pure, Except.pure] at h
      split at h
      · simp at h
      · rename_i first built_first
        split at h
        · simp at h
        · rename_i later built
          simp only [Except.ok.injEq, Prod.mk.injEq] at h
          obtain ⟨rfl, rfl⟩ := h
          simp only [armVisits, built_first, List.mem_append] at good
          obtain ⟨marks, body, begins, stop, eq, each, skip⟩ :=
            ih built fun p member => good p (.inr member)
          refine ⟨lead placed marks, lead first.2 body, rfl, stop,
            by simp [List.range_succ_eq_map, eq, Function.comp_def, lead], ?_, ?_⟩
          · intro i t s found
            cases i with
            | zero =>
              simp only [List.getElem?_cons_zero, Option.some.injEq, Prod.mk.injEq] at found
              obtain ⟨rfl, rfl⟩ := found
              have same : (marks 0, first.2) = first := by rw [begins]
              exact ⟨built_first.trans (congrArg _ same.symm), fun p member => good p (.inl member)⟩
            | succ i => exact each i t s (by simpa using found)
          · intro i found
            cases i with
            | zero => simp at found
            | succ i => exact skip i (by simpa using found)

theorem built_of_region {P : Plan → Prop} {budget start : Nat} {scope : Scope}
    {placed placed' : Marks} {ps : List Piece}
    (h : l.region budget placed start scope = .ok (placed', ps))
    (good : ∀ v ∈ l.visitsFrom budget placed start scope, ∀ plan,
      l.planAt? v = some plan → P plan) :
    l.Built P placed start scope placed' ps := by
  induction budget generalizing placed placed' start scope ps with
  | zero =>
    unfold region at h
    simp only at h
    split at h
    · rename_i ends
      simp only [Except.ok.injEq, Prod.mk.injEq] at h
      obtain ⟨rfl, rfl⟩ := h
      exact .ended ends
    · simp at h
  | succ budget ih =>
    unfold region at h
    simp only at h
    split at h
    · rename_i ends
      simp only [Except.ok.injEq, Prod.mk.injEq] at h
      obtain ⟨rfl, rfl⟩ := h
      exact .ended ends
    rename_i inside
    split at h
    · rename_i budget' b eq found
      obtain rfl : budget = budget' := by omega
      split at h
      · rename_i opened
        simp only [bind, Except.bind, pure, Except.pure] at h
        split at h
        · simp at h
        rename_i made planned
        obtain ⟨placed₁, plan⟩ := made
        split at h
        · simp at h
        rename_i arms built
        obtain ⟨placed₂, bodies⟩ := arms
        unfold visitsFrom at good
        simp only [found, inside, planned, Bool.false_eq_true, ↓reduceIte, List.mem_cons,
          List.mem_append] at good
        have fits : P plan := good _ (.inl rfl) plan (by simp [planAt?, planned, Except.toOption])
        obtain ⟨marks, body, rfl, rfl, rfl, each, skip⟩ :=
          buildArms_ok built fun p member => good p (.inr (.inl member))
        have arms : ∀ i t s, plan.arms[i]? = some (some (t, s)) →
            l.Built P (marks i) t s (marks (i + 1)) (body i) :=
          fun i t s at_i => ih (each i t s at_i).1 (each i t s at_i).2
        simp only at h
        cases follow : plan.follow? with
        | none =>
          simp only [follow, Except.ok.injEq, Prod.mk.injEq] at h
          obtain ⟨rfl, rfl⟩ := h
          exact .block (by simpa using inside) found opened planned fits arms
            skip (by simp [follow]) fun _ => ⟨rfl, rfl⟩
        | some m =>
          simp only [follow] at h
          split at h
          · simp at h
          rename_i tail continued
          simp only [Except.ok.injEq, Prod.mk.injEq] at h
          obtain ⟨rfl, rfl⟩ := h
          refine .block (by simpa using inside) found opened planned fits arms
            skip ?_ (by simp [follow])
          intro m' same
          rw [follow, Option.some.injEq] at same
          subst same
          exact ih continued fun p member => good p (.inr (.inr (by simpa [built, follow])))
      · simp at h
    · simp at h

theorem mem_armVisits {build : Marks → Nat → Scope → Except Obstacle (Marks × List Piece)}
    {visits : Marks → Nat → Scope → List Visit} {arms : List (Option (Nat × Scope))}
    {placed : Marks} {v : Visit} (member : v ∈ armVisits build visits placed arms) :
    ∃ placed start scope, v ∈ visits placed start scope := by
  induction arms generalizing placed with
  | nil => simp [armVisits] at member
  | cons arm arms ih =>
    cases arm with
    | none => exact ih member
    | some arm =>
      simp only [armVisits, List.mem_append] at member
      rcases member with here | later
      · exact ⟨_, _, _, here⟩
      · split at later
        · exact ih later
        · simp at later

theorem block_of_mem_visitsFrom {budget start : Nat} {scope : Scope} {placed : Marks} {v : Visit}
    (member : v ∈ l.visitsFrom budget placed start scope) :
    ∃ n, l.graph.block? n = some v.block := by
  induction budget generalizing placed start scope with
  | zero =>
    unfold visitsFrom at member
    simp at member
  | succ budget ih =>
    unfold visitsFrom at member
    simp only at member
    split at member
    · rename_i budget' b eq found
      obtain rfl : budget = budget' := by omega
      split at member
      · simp at member
      · rcases List.mem_cons.1 member with rfl | member
        · exact ⟨_, found⟩
        · split at member
          · simp at member
          · rcases List.mem_append.1 member with arm | later
            · obtain ⟨_, _, _, inner⟩ := mem_armVisits arm
              exact ih inner
            · split at later
              · exact ih later
              · simp at later
    · simp at member

theorem mem_plans {plan : Plan} (made : plan ∈ l.plans) :
    ∃ v ∈ l.visits, ∃ placed', l.plan v.placed v.block v.scope = .ok (placed', plan) := by
  obtain ⟨v, visited, planned⟩ := List.mem_filterMap.1 made
  obtain ⟨⟨placed', plan'⟩, ok, rfl⟩ := Option.map_eq_some_iff.1 planned
  refine ⟨v, visited, placed', ?_⟩
  cases result : l.plan v.placed v.block v.scope with
  | error o => simp [result, Except.toOption] at ok
  | ok made => simpa [result, Except.toOption] using ok

end Layout

end ClientScript
