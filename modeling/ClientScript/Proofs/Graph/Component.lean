import ClientScript.Graph.Component
import Mathlib.Data.List.Infix
import Mathlib.Data.List.Nodup
import Mathlib.Data.List.Perm.Basic
import Mathlib.Order.Basic
import Mathlib.Tactic.ByContra

/-!
Components are found. The nodes on the stack are in the order the search came to them, earlier ones
lead to later ones, and each leads to one that is still being visited and is no later. When the
edges of a node have been followed, its low mark bounds the numbers of all earlier stacked nodes
that it and what came behind it lead to; if it is the number of the node itself, nothing leads
further down, and what is popped is a component. Main statement: the components are the classes of
nodes that reach each other, every node is in one of them, and edges lead to components that are
listed no later.
-/
namespace ClientScript

namespace Descent

def Seen (s : Descent) (v : Nat) : Prop := (s.number? v).isSome

variable {s : Descent} {v w n : Nat}

theorem number?_of_isFresh (fresh : s.isFresh w) : s.number? w = none := by
  rw [number?, beq_iff_eq.1 fresh]
  rfl

theorem not_seen_of_isFresh (fresh : s.isFresh w) : ¬ s.Seen w := by
  rw [Seen, number?_of_isFresh fresh]
  simp

theorem inside_of_isFresh (fresh : s.isFresh w) : w < s.number.size :=
  (Array.getElem?_eq_some_iff.1 (beq_iff_eq.1 fresh)).1

theorem seen_of_not_isFresh (inside : w < s.number.size) (old : ¬ s.isFresh w) : s.Seen w := by
  rw [isFresh, Array.getElem?_eq_getElem inside, beq_iff_eq] at old
  rw [Seen, number?, Array.getElem?_eq_getElem inside]
  cases number : s.number[w] with
  | none => exact absurd (congrArg some number) old
  | some n => rfl

theorem inside_of_seen (seen : s.Seen w) : w < s.number.size := by
  by_contra outside
  rw [Seen, number?, Array.getElem?_eq_none (Nat.le_of_not_lt outside)] at seen
  simp at seen

theorem number?_of_seen (seen : s.Seen w) : s.number? w = some (s.rank w) := by
  obtain ⟨n, number⟩ := Option.isSome_iff_exists.1 seen
  rw [rank, number]
  rfl

theorem number?_enter (inside : v < s.number.size) :
    (s.enter v).number? w = if w = v then some s.next else s.number? w := by
  rw [number?, number?, enter, Array.getElem?_setIfInBounds]
  by_cases same : v = w
  · subst same
    simp [inside]
  · simp [same, Ne.symm same]

theorem seen_enter (inside : v < s.number.size) : (s.enter v).Seen w ↔ w = v ∨ s.Seen w := by
  rw [Seen, number?_enter inside]
  split
  · rename_i same
    simp [same]
  · rename_i other
    simp [other, Seen]

theorem rank_enter (inside : v < s.number.size) :
    (s.enter v).rank w = if w = v then s.next else s.rank w := by
  rw [rank, number?_enter inside]
  split <;> rfl

theorem lowOf_enter (inside : v < s.low.size) :
    (s.enter v).lowOf w = if w = v then s.next else s.lowOf w := by
  rw [lowOf, lowOf, enter, Array.getElem?_setIfInBounds]
  by_cases same : v = w
  · subst same
    simp [inside]
  · simp [same, Ne.symm same]

theorem isStacked_enter (inside : v < s.stacked.size) :
    (s.enter v).isStacked w = (w == v || s.isStacked w) := by
  rw [isStacked, isStacked, enter, Array.getElem?_setIfInBounds]
  by_cases same : v = w
  · subst same
    simp [inside]
  · simp [same, Ne.symm same]

theorem lowOf_lower (s : Descent) (v w n : Nat) :
    (s.lower v n).lowOf w = if w = v then min (s.lowOf v) n else s.lowOf w := by
  rw [lowOf, lower, Array.getElem?_modify]
  by_cases same : v = w
  · subst same
    rw [if_pos rfl, if_pos rfl, lowOf]
    cases s.low[v]? <;> simp
  · rw [if_neg same, if_neg (Ne.symm same), lowOf]

theorem popTo_append {xs rest : List Nat} (absent : v ∉ xs) :
    popTo v (xs ++ v :: rest) = (xs ++ [v], rest) := by
  induction xs with
  | nil => simp [popTo]
  | cons x xs ih =>
    obtain ⟨other, absent⟩ := not_or.1 (mt List.mem_cons.2 absent)
    rw [List.cons_append, popTo, if_neg (Ne.symm other), ih absent]
    rfl

theorem pop_eq {above rest : List Nat} (absent : v ∉ above) (split : s.stack = above ++ v :: rest) :
    s.pop v = { s with
      stacked := (above ++ [v]).foldl (fun flags w => flags.setIfInBounds w false) s.stacked
      stack := rest
      found := (above ++ [v]) :: s.found } := by
  rw [pop, split, popTo_append absent]

theorem getD_unset (vs : List Nat) (flags : Array Bool) (w : Nat) :
    ((vs.foldl (fun flags v => flags.setIfInBounds v false) flags)[w]?.getD false) =
      (flags[w]?.getD false && decide (w ∉ vs)) := by
  induction vs generalizing flags with
  | nil => simp
  | cons v vs ih =>
    rw [List.foldl_cons, ih, Array.getElem?_setIfInBounds]
    by_cases same : v = w
    · subst same
      by_cases inside : v < flags.size <;> simp [inside]
    · simp [same, Ne.symm same]

theorem size_unset (vs : List Nat) (flags : Array Bool) :
    (vs.foldl (fun flags v => flags.setIfInBounds v false) flags).size = flags.size := by
  induction vs generalizing flags with
  | nil => rfl
  | cons v vs ih => rw [List.foldl_cons, ih, Array.size_setIfInBounds]

structure Extends (s t : Descent) : Prop where
  seen : ∀ {v}, s.Seen v → t.Seen v
  rank : ∀ {v}, s.Seen v → t.rank v = s.rank v
  stack : s.stack <:+ t.stack
  found : ∀ {v}, v ∈ s.found.flatten → v ∈ t.found.flatten

variable {t r : Descent}

theorem Extends.refl (s : Descent) : Extends s s := ⟨id, fun _ => rfl, List.suffix_rfl, id⟩

theorem Extends.trans (h : Extends s t) (k : Extends t r) : Extends s r :=
  ⟨k.seen ∘ h.seen, fun seen => (k.rank (h.seen seen)).trans (h.rank seen), h.stack.trans k.stack,
    k.found ∘ h.found⟩

theorem extends_enter (fresh : s.isFresh v) : Extends s (s.enter v) := by
  have inside := inside_of_isFresh fresh
  refine ⟨fun seen => (seen_enter inside).2 (.inr seen), fun {w} seen => ?_,
    List.suffix_cons v s.stack, id⟩
  rw [rank_enter inside, if_neg]
  rintro rfl
  exact not_seen_of_isFresh fresh seen

theorem extends_lower (s : Descent) (v n : Nat) : Extends s (s.lower v n) :=
  ⟨id, fun _ => rfl, List.suffix_rfl, id⟩

end Descent

open Descent

namespace Adjacency

/-- Edges of each component lead to itself and to components found before. -/
def Settled (g : Adjacency) : List (List Nat) → Prop
  | [] => True
  | C :: rest => (∀ u ∈ C, ∀ w ∈ g.next u, w ∈ C ∨ w ∈ rest.flatten) ∧ g.Settled rest

def IsClass (g : Adjacency) (C : List Nat) : Prop :=
  C ≠ [] ∧ ∀ u ∈ C, ∀ w, w ∈ C ↔ g.Reaches u w ∧ g.Reaches w u

/-- A search in which the nodes of a path are being visited. -/
structure Sound (g : Adjacency) (path : List Nat) (s : Descent) : Prop where
  numbers : s.number.size = g.size
  lows : s.low.size = g.size
  flags : s.stacked.size = g.size
  early : ∀ {v}, s.Seen v → s.rank v < s.next
  flagged : ∀ {v}, s.isStacked v = true ↔ v ∈ s.stack
  covered : ∀ {v}, s.Seen v ↔ v ∈ s.stack ∨ v ∈ s.found.flatten
  distinct : (s.stack ++ s.found.flatten).Nodup
  falls : s.stack.Pairwise fun a b => s.rank b < s.rank a
  climbs : s.stack.Pairwise fun a b => g.Reaches b a
  onPath : ∀ {a}, a ∈ path → a ∈ s.stack
  grounded : ∀ {x}, x ∈ s.stack → ∃ a ∈ path, s.rank a ≤ s.rank x ∧ g.Reaches x a
  closed : ∀ {u w}, s.Seen u → u ∉ path → w ∈ g.next u → s.Seen w
  settled : g.Settled s.found
  classes : ∀ C ∈ s.found, g.IsClass C

variable {g : Adjacency} {path ws ws' : List Nat} {s t r : Descent} {u v w x y n : Nat}
  {found : List (List Nat)}

theorem Settled.next (settled : g.Settled found) (here : u ∈ found.flatten) (edge : w ∈ g.next u) :
    w ∈ found.flatten := by
  induction found with
  | nil => simp at here
  | cons C rest ih =>
    rw [List.flatten_cons, List.mem_append] at here ⊢
    rcases here with here | here
    · exact settled.1 u here w edge
    · exact .inr (ih settled.2 here)

theorem Settled.reaches (settled : g.Settled found) (here : u ∈ found.flatten)
    (reaches : g.Reaches u v) : v ∈ found.flatten :=
  reaches.closed here fun _ among _ edge => settled.next among edge

theorem Sound.not_found (sound : g.Sound path s) (stacked : v ∈ s.stack) :
    v ∉ s.found.flatten :=
  fun found => (List.nodup_append'.1 sound.distinct).2.2 stacked found

theorem sound_start (g : Adjacency) : g.Sound [] (start g.size) := by
  have unseen {v : Nat} : ¬ (start g.size).Seen v := by
    rw [Seen, number?, start, Array.getElem?_replicate]
    split <;> simp
  refine ⟨Array.size_replicate, Array.size_replicate, Array.size_replicate,
    fun seen => absurd seen unseen, ?_, ?_, List.nodup_nil, .nil, .nil, by simp, ?_,
    fun seen => absurd seen unseen, trivial, nofun⟩
  · intro v
    rw [isStacked, start, Array.getElem?_replicate]
    split <;> simp
  · intro v
    simpa [start] using unseen
  · intro x stacked
    simp [start] at stacked

theorem Sound.lower (sound : g.Sound path s) (v n : Nat) : g.Sound path (s.lower v n) :=
  { sound with lows := by rw [Descent.lower, Array.size_modify, sound.lows] }

theorem Sound.enter (sound : g.Sound path s) (fresh : s.isFresh w)
    (leads : ∀ a ∈ path, g.Reaches a w) : g.Sound (w :: path) (s.enter w) := by
  have inside := inside_of_isFresh fresh
  have bound : w < g.size := sound.numbers ▸ inside
  have unseen := not_seen_of_isFresh fresh
  have absent := not_or.1 (mt sound.covered.2 unseen)
  have rank {x : Nat} (old : s.Seen x) : (s.enter w).rank x = s.rank x :=
    (extends_enter fresh).rank old
  have top : (s.enter w).rank w = s.next := by rw [rank_enter inside, if_pos rfl]
  have seen {x : Nat} (stacked : x ∈ s.stack) : s.Seen x := sound.covered.2 (.inl stacked)
  -- The new node has the greatest number so far, and all of the path and the stack leads to it.
  refine ⟨?_, ?_, ?_, ?_, ?_, ?_, ?_, ?_, ?_, ?_, ?_, ?_, sound.settled, sound.classes⟩
  · rw [Descent.enter, Array.size_setIfInBounds, sound.numbers]
  · rw [Descent.enter, Array.size_setIfInBounds, sound.lows]
  · rw [Descent.enter, Array.size_setIfInBounds, sound.flags]
  · intro v known
    rcases (seen_enter inside).1 known with rfl | old
    · rw [top]
      exact Nat.lt_succ_self _
    · rw [rank old]
      exact Nat.lt_succ_of_lt (sound.early old)
  · intro v
    rw [isStacked_enter (sound.flags ▸ bound), Bool.or_eq_true, beq_iff_eq, sound.flagged]
    exact List.mem_cons.symm
  · intro v
    rw [seen_enter inside, sound.covered, ← or_assoc]
    exact or_congr_left List.mem_cons.symm
  · exact List.nodup_cons.2
      ⟨fun among => (List.mem_append.1 among).elim absent.1 absent.2, sound.distinct⟩
  · refine List.pairwise_cons.2 ⟨fun b stacked => ?_, sound.falls.imp_of_mem fun ha hb less => ?_⟩
    · rw [top, rank (seen stacked)]
      exact sound.early (seen stacked)
    · rwa [rank (seen ha), rank (seen hb)]
  · refine List.pairwise_cons.2 ⟨fun b stacked => ?_, sound.climbs⟩
    obtain ⟨a, among, -, reaches⟩ := sound.grounded stacked
    exact reaches.trans (leads a among)
  · intro a among
    rcases List.mem_cons.1 among with rfl | later
    · exact List.mem_cons_self
    · exact List.mem_cons_of_mem _ (sound.onPath later)
  · intro x stacked
    rcases List.mem_cons.1 stacked with rfl | old
    · exact ⟨x, List.mem_cons_self, Nat.le_refl _, .refl g x⟩
    · obtain ⟨a, among, le, reaches⟩ := sound.grounded old
      refine ⟨a, List.mem_cons_of_mem _ among, ?_, reaches⟩
      rwa [rank (seen (sound.onPath among)), rank (seen old)]
  · intro u x known out edge
    obtain ⟨other, out⟩ := not_or.1 (mt List.mem_cons.2 out)
    have old := ((seen_enter inside).1 known).resolve_left other
    exact (seen_enter inside).2 (.inr (sound.closed old out edge))

/-- A search has followed edges of `v` to the nodes of a list. The low mark of `v` is the number of
    a stacked node that `v` reaches, and bounds those of the nodes followed and of all earlier nodes
    that what has been stacked since leads to. -/
structure Followed (g : Adjacency) (path : List Nat) (v : Nat) (ws : List Nat) (s t : Descent) :
    Prop where
  sound : g.Sound (v :: path) t
  grown : Extends s t
  kept : ∀ {x}, s.Seen x → x ≠ v → t.lowOf x = s.lowOf x
  lower : t.lowOf v ≤ s.lowOf v
  attained : ∃ y ∈ t.stack, t.rank y = t.lowOf v ∧ g.Reaches v y
  seen : ∀ {w}, w ∈ ws → t.Seen w
  bound : ∀ {w}, w ∈ ws → w ∈ t.stack → t.lowOf v ≤ t.rank w
  edges : ∀ {x y}, x ∈ t.stack → x ∉ s.stack → y ∈ g.next x → y ∈ s.stack → t.lowOf v ≤ t.rank y

/-- A search has come to `w` and left it again. -/
structure Visited (g : Adjacency) (path : List Nat) (w : Nat) (s t : Descent) : Prop where
  sound : g.Sound path t
  grown : Extends s t
  seen : t.Seen w
  later : ∀ {x}, s.Seen x → t.rank x < t.rank w
  kept : ∀ {x}, s.Seen x → t.lowOf x = s.lowOf x
  low : t.lowOf w ≤ t.rank w
  attained : t.lowOf w = t.rank w ∨ ∃ y ∈ t.stack, t.rank y = t.lowOf w ∧ g.Reaches w y
  edges : ∀ {x y}, x ∈ t.stack → x ∉ s.stack → y ∈ g.next x → y ∈ s.stack → t.lowOf w ≤ t.rank y

theorem Followed.trans (h : g.Followed path v ws s t) (k : g.Followed path v ws' t r) :
    g.Followed path v (ws ++ ws') s r where
  sound := k.sound
  grown := h.grown.trans k.grown
  kept := fun known other => (k.kept (h.grown.seen known) other).trans (h.kept known other)
  lower := Nat.le_trans k.lower h.lower
  attained := k.attained
  seen := fun among =>
    (List.mem_append.1 among).elim (fun first => k.grown.seen (h.seen first)) k.seen
  bound := by
    intro w among stacked
    rcases List.mem_append.1 among with first | second
    · have known := h.seen first
      rcases h.sound.covered.1 known with before | done
      · rw [k.grown.rank known]
        exact Nat.le_trans k.lower (h.bound first before)
      · exact absurd (k.grown.found done) (k.sound.not_found stacked)
    · exact k.bound second stacked
  edges := by
    intro x y stacked new edge old
    by_cases between : x ∈ t.stack
    · rw [k.grown.rank (h.sound.covered.2 (.inl (h.grown.stack.subset old)))]
      exact Nat.le_trans k.lower (h.edges between new edge old)
    · exact k.edges stacked between edge (h.grown.stack.subset old)

section

variable (sound : g.Sound (v :: path) s)
  (attained : ∃ y ∈ s.stack, s.rank y = s.lowOf v ∧ g.Reaches v y)
include sound attained

theorem followed_nil : g.Followed path v [] s s :=
  ⟨sound, .refl s, fun _ _ => rfl, Nat.le_refl _, attained, nofun, nofun,
    fun stacked new => absurd stacked new⟩

theorem followed_done (old : s.Seen w) (done : w ∉ s.stack) : g.Followed path v [w] s s where
  __ := followed_nil sound attained
  seen := fun among => List.mem_singleton.1 among ▸ old
  bound := fun among stacked => absurd (List.mem_singleton.1 among ▸ stacked) done

theorem followed_stacked (edge : w ∈ g.next v) (stacked : w ∈ s.stack) :
    g.Followed path v [w] s (s.lower v (s.rank w)) := by
  have low : (s.lower v (s.rank w)).lowOf v = min (s.lowOf v) (s.rank w) := by
    rw [lowOf_lower, if_pos rfl]
  refine ⟨sound.lower v _, extends_lower s v _, fun _ other => ?_, ?_, ?_, fun among => ?_,
    fun among _ => ?_, fun stacked new => absurd stacked new⟩
  · rw [lowOf_lower, if_neg other]
  · rw [low]
    exact Nat.min_le_left _ _
  · rw [low]
    rcases Nat.le_total (s.lowOf v) (s.rank w) with le | le
    · rw [Nat.min_eq_left le]
      exact attained
    · rw [Nat.min_eq_right le]
      exact ⟨w, stacked, rfl, .edge edge⟩
  · rw [List.mem_singleton.1 among]
    exact sound.covered.2 (.inl stacked)
  · rw [low, List.mem_singleton.1 among]
    exact Nat.min_le_right _ _

theorem followed_visited (edge : w ∈ g.next v) (low : s.lowOf v ≤ s.rank v)
    (visited : g.Visited (v :: path) w s t) :
    g.Followed path v [w] s (t.lower v (t.lowOf w)) := by
  have known : s.Seen v := sound.covered.2 (.inl (sound.onPath List.mem_cons_self))
  have lowered : (t.lower v (t.lowOf w)).lowOf v = min (s.lowOf v) (t.lowOf w) := by
    rw [lowOf_lower, if_pos rfl, visited.kept known]
  refine ⟨visited.sound.lower v _, visited.grown.trans (extends_lower t v _), fun old other => ?_,
    ?_, ?_, fun among => ?_, fun among _ => ?_, fun stacked new edge old => ?_⟩
  · rw [lowOf_lower, if_neg other, visited.kept old]
  · rw [lowered]
    exact Nat.min_le_left _ _
  · rw [lowered]
    rcases Nat.le_total (s.lowOf v) (t.lowOf w) with le | le
    · rw [Nat.min_eq_left le]
      obtain ⟨y, stacked, rank, reaches⟩ := attained
      refine ⟨y, visited.grown.stack.subset stacked, ?_, reaches⟩
      exact (visited.grown.rank (sound.covered.2 (.inl stacked))).trans rank
    · rw [Nat.min_eq_right le]
      rcases visited.attained with own | ⟨y, stacked, rank, reaches⟩
      · have later := visited.later known
        have same := visited.grown.rank known
        omega
      · exact ⟨y, stacked, rank, (Reaches.edge edge).trans reaches⟩
  · rw [List.mem_singleton.1 among]
    exact visited.seen
  · rw [lowered, List.mem_singleton.1 among]
    exact Nat.le_trans (Nat.min_le_right _ _) visited.low
  · rw [lowered]
    exact Nat.le_trans (Nat.min_le_right _ _) (visited.edges stacked new edge old)

end

theorem Followed.exists_split (followed : g.Followed path w ws (s.enter w) t) :
    ∃ above, t.stack = above ++ w :: s.stack := by
  obtain ⟨above, split⟩ := followed.grown.stack
  exact ⟨above, split.symm⟩

section

variable {above : List Nat} (followed : g.Followed path w (g.next w) (s.enter w) t)
  (split : t.stack = above ++ w :: s.stack)
include followed

theorem Followed.next_seen (known : t.Seen x) (out : x ∉ path) (edge : y ∈ g.next x) :
    t.Seen y := by
  by_cases same : x = w
  · exact followed.seen (same ▸ edge)
  · exact followed.sound.closed known
      (fun among => (List.mem_cons.1 among).elim same out) edge

include split

theorem Followed.rank_below (old : y ∈ s.stack) : t.rank y < t.rank w := by
  have falls := followed.sound.falls
  rw [split, List.pairwise_append] at falls
  exact (List.pairwise_cons.1 falls.2.1).1 y old

theorem Followed.rank_above (member : x ∈ above) : t.rank w < t.rank x := by
  have falls := followed.sound.falls
  rw [split, List.pairwise_append] at falls
  exact falls.2.2 x member w List.mem_cons_self

theorem Followed.not_above (old : x ∈ w :: s.stack) : x ∉ above := by
  have distinct := (List.nodup_append'.1 followed.sound.distinct).1
  rw [split] at distinct
  exact fun member => (List.nodup_append'.1 distinct).2.2 member old

theorem Followed.not_below (member : x ∈ above ++ [w]) : x ∉ s.stack := by
  intro old
  rcases List.mem_append.1 member with higher | last
  · exact followed.not_above split (List.mem_cons_of_mem _ old) higher
  · obtain rfl := List.mem_singleton.1 last
    exact Nat.lt_irrefl _ (followed.rank_below split old)

theorem Followed.low_le (member : x ∈ above ++ [w]) (edge : y ∈ g.next x) (old : y ∈ s.stack) :
    t.lowOf w ≤ t.rank y := by
  have entered : y ∈ (s.enter w).stack := List.mem_cons_of_mem _ old
  rcases List.mem_append.1 member with higher | last
  · have stacked : x ∈ t.stack := split ▸ List.mem_append_left _ higher
    exact followed.edges stacked (fun among => followed.not_above split among higher) edge entered
  · obtain rfl := List.mem_singleton.1 last
    exact followed.bound edge (followed.grown.stack.subset entered)

omit followed in
theorem mem_stack_iff : x ∈ t.stack ↔ x ∈ above ++ [w] ∨ x ∈ s.stack := by
  rw [split, ← List.singleton_append, ← List.append_assoc, List.mem_append]

variable (sound : g.Sound path s) (least : t.lowOf w = t.rank w)
include sound least

/-- From above a node with its own number as low mark, edges lead above it or to components. -/
theorem Followed.next_of_least (member : x ∈ above ++ [w]) (edge : y ∈ g.next x) :
    y ∈ above ++ [w] ∨ y ∈ t.found.flatten := by
  have known := followed.sound.covered.2 (.inl ((mem_stack_iff split).2 (.inl member)))
  have out : x ∉ path := fun among => followed.not_below split member (sound.onPath among)
  have known' := followed.next_seen known out edge
  refine (followed.sound.covered.1 known').imp_left fun stacked => ?_
  refine ((mem_stack_iff split).1 stacked).resolve_right fun old => ?_
  have bound := followed.low_le split member edge old
  have below := followed.rank_below split old
  omega

theorem Followed.reaches_of_least (member : x ∈ above ++ [w]) (reaches : g.Reaches x y) :
    y ∈ above ++ [w] ∨ y ∈ t.found.flatten := by
  refine reaches.closed (S := fun z => z ∈ above ++ [w] ∨ z ∈ t.found.flatten) (.inl member) ?_
  rintro z (here | done) z' edge
  · exact followed.next_of_least split sound least here edge
  · exact .inr (followed.sound.settled.next done edge)

/-- What is above such a node is its component. -/
theorem Followed.isClass : g.IsClass (above ++ [w]) := by
  have stacked {x : Nat} (member : x ∈ above ++ [w]) : x ∈ t.stack :=
    (mem_stack_iff split).2 (.inl member)
  have down {x : Nat} (member : x ∈ above ++ [w]) : g.Reaches x w := by
    obtain ⟨a, among, -, reaches⟩ := followed.sound.grounded (stacked member)
    rcases List.mem_cons.1 among with rfl | earlier
    · exact reaches
    · have old := sound.onPath earlier
      rcases followed.reaches_of_least split sound least member reaches with here | done
      · exact absurd old (followed.not_below split here)
      · exact absurd done (followed.sound.not_found ((mem_stack_iff split).2 (.inr old)))
  have up {x : Nat} (member : x ∈ above ++ [w]) : g.Reaches w x := by
    rcases List.mem_append.1 member with higher | last
    · have climbs := followed.sound.climbs
      rw [split, List.pairwise_append] at climbs
      exact climbs.2.2 x higher w List.mem_cons_self
    · obtain rfl := List.mem_singleton.1 last
      exact .refl g x
  refine ⟨by simp, fun u here x => ⟨fun member => ?_, fun ⟨forth, back⟩ => ?_⟩⟩
  · exact ⟨(down here).trans (up member), (down member).trans (up here)⟩
  · refine (followed.reaches_of_least split sound least here forth).resolve_right fun done => ?_
    exact followed.sound.not_found (stacked here) (followed.sound.settled.reaches done back)

theorem Followed.sound_pop (grown : Extends s t) : g.Sound path (t.pop w) := by
  have inner := followed.sound
  have shorter : s.stack.Sublist t.stack := grown.stack.sublist
  have order : t.stack = (above ++ [w]) ++ s.stack := by rw [split]; simp
  rw [pop_eq (followed.not_above split List.mem_cons_self) split]
  refine ⟨inner.numbers, inner.lows, ?_, inner.early, ?_, ?_, ?_, inner.falls.sublist shorter,
    inner.climbs.sublist shorter, sound.onPath, ?_, followed.next_seen,
    ⟨fun _ here _ edge => followed.next_of_least split sound least here edge, inner.settled⟩, ?_⟩
  · rw [size_unset, inner.flags]
  · intro v
    rw [isStacked, getD_unset, Bool.and_eq_true, decide_eq_true_iff]
    change t.isStacked v = true ∧ _ ↔ _
    rw [inner.flagged, mem_stack_iff split]
    exact ⟨fun ⟨either, other⟩ => either.resolve_left other,
      fun old => ⟨.inr old, fun here => followed.not_below split here old⟩⟩
  · intro v
    change t.Seen v ↔ v ∈ s.stack ∨ v ∈ ((above ++ [w]) :: t.found).flatten
    rw [inner.covered, mem_stack_iff split, List.flatten_cons,
      List.mem_append (s := above ++ [w]), or_comm (a := v ∈ above ++ [w]), or_assoc]
  · have distinct := inner.distinct
    rw [order, List.append_assoc] at distinct
    exact (List.perm_append_comm_assoc ..).nodup_iff.1 distinct
  · intro x old
    obtain ⟨a, among, le, reaches⟩ := sound.grounded old
    refine ⟨a, among, ?_, reaches⟩
    have known := sound.covered.2 (.inl (sound.onPath among))
    exact (grown.rank known).trans_le (le.trans_eq (grown.rank (sound.covered.2 (.inl old))).symm)
  · intro C member
    rcases List.mem_cons.1 member with rfl | before
    · exact followed.isClass split sound least
    · exact inner.classes C before

end

theorem Followed.sound_stay (followed : g.Followed path w (g.next w) (s.enter w) t)
    (sound : g.Sound path s) (grown : Extends s t) (less : t.lowOf w < t.rank w) :
    g.Sound path t := by
  obtain ⟨above, split⟩ := followed.exists_split
  have inner := followed.sound
  refine { inner with
    onPath := fun among => inner.onPath (List.mem_cons_of_mem w among)
    grounded := fun {x} stacked => ?_
    closed := followed.next_seen }
  obtain ⟨a, among, le, reaches⟩ := inner.grounded stacked
  rcases List.mem_cons.1 among with rfl | earlier
  · -- what it leads to is below it, so what that one is grounded on is further down the path
    obtain ⟨y, stacked', rank, reaches'⟩ := followed.attained
    have lower : y ∈ s.stack := by
      refine ((mem_stack_iff split).1 stacked').resolve_left fun member => ?_
      rcases List.mem_append.1 member with higher | last
      · have := followed.rank_above split higher
        omega
      · obtain rfl := List.mem_singleton.1 last
        omega
    obtain ⟨b, among', le', reaches''⟩ := sound.grounded lower
    have same := grown.rank (sound.covered.2 (.inl (sound.onPath among')))
    have same' := grown.rank (sound.covered.2 (.inl lower))
    exact ⟨b, among', by omega, reaches.trans (reaches'.trans reaches'')⟩
  · exact ⟨a, earlier, le, reaches⟩

theorem Followed.visited (followed : g.Followed path w (g.next w) (s.enter w) t)
    (sound : g.Sound path s) (fresh : s.isFresh w) : g.Visited path w s (t.leave w) := by
  have inside := inside_of_isFresh fresh
  have inside' : w < s.low.size := by rwa [sound.lows, ← sound.numbers]
  have grown := (extends_enter fresh).trans followed.grown
  have entered : (s.enter w).Seen w := (seen_enter inside).2 (.inl rfl)
  have known := followed.grown.seen entered
  have rank : t.rank w = s.next := by
    rw [followed.grown.rank entered, rank_enter inside, if_pos rfl]
  have low : t.lowOf w ≤ t.rank w := by
    have lower := followed.lower
    rwa [lowOf_enter inside', if_pos rfl, ← rank] at lower
  have later {x : Nat} (old : s.Seen x) : t.rank x < t.rank w := by
    rw [rank, grown.rank old]
    exact sound.early old
  have kept {x : Nat} (old : s.Seen x) : t.lowOf x = s.lowOf x := by
    have other : x ≠ w := by
      rintro rfl
      exact not_seen_of_isFresh fresh old
    rw [followed.kept ((extends_enter fresh).seen old) other, lowOf_enter inside', if_neg other]
  obtain ⟨above, split⟩ := followed.exists_split
  rw [leave, number?_of_seen known]
  by_cases least : t.lowOf w = t.rank w
  · have form := pop_eq (followed.not_above split List.mem_cons_self) split
    have stack : (t.pop w).stack = s.stack := by rw [form]
    have found : (t.pop w).found = (above ++ [w]) :: t.found := by rw [form]
    rw [if_pos (congrArg some least.symm)]
    refine ⟨followed.sound_pop split sound least grown,
      ⟨grown.seen, grown.rank, ?_, fun before => ?_⟩, known, later, kept, low, .inl least,
      fun stacked new => ?_⟩
    · rw [stack]
    · rw [found]
      exact List.mem_append_right _ (grown.found before)
    · exact absurd (stack ▸ stacked) new
  · rw [if_neg fun same => least (Option.some.inj same).symm]
    refine ⟨followed.sound_stay sound grown (by omega), grown, known, later, kept, low,
      .inr followed.attained, fun stacked new edge old => ?_⟩
    have member := ((mem_stack_iff split).1 stacked).resolve_right new
    exact followed.low_le split member edge old

theorem Followed.low_onward (sound : g.Sound (v :: path) s) (low : s.lowOf v ≤ s.rank v)
    (followed : g.Followed path v ws s t) : t.lowOf v ≤ t.rank v := by
  have known := sound.covered.2 (.inl (sound.onPath List.mem_cons_self))
  rw [followed.grown.rank known]
  exact Nat.le_trans followed.lower low

theorem Sound.lowOf_enter (sound : g.Sound path s) (fresh : s.isFresh w) :
    (s.enter w).lowOf w = (s.enter w).rank w := by
  have inside := inside_of_isFresh fresh
  rw [rank_enter inside, Descent.lowOf_enter (by rwa [sound.lows, ← sound.numbers]), if_pos rfl,
    if_pos rfl]

theorem followed_follow (sound : g.Sound (v :: path) s) (leads : ∀ a ∈ path, g.Reaches a v)
    (among : ∀ w ∈ ws, w ∈ g.next v) (low : s.lowOf v ≤ s.rank v)
    (attained : ∃ y ∈ s.stack, s.rank y = s.lowOf v ∧ g.Reaches v y) :
    g.Followed path v ws s (g.follow v ws s).1 := by
  induction v, ws, s using follow.induct g generalizing path with
  | case1 v s =>
    rw [follow]
    exact followed_nil sound attained
  | case2 v w ws s fresh inner t less ihVisit ihRest =>
    have edge := among w List.mem_cons_self
    have leads' : ∀ a ∈ v :: path, g.Reaches a w := by
      intro a member
      rcases List.mem_cons.1 member with rfl | earlier
      · exact .edge edge
      · exact (leads a earlier).trans (.edge edge)
    have same := sound.lowOf_enter fresh
    have inner := ihVisit (sound.enter fresh leads') leads' (fun _ => id) (Nat.le_of_eq same)
      ⟨w, List.mem_cons_self, same.symm, .refl g w⟩
    have first := followed_visited sound attained edge low (inner.visited sound fresh)
    have rest := ihRest first.sound leads (fun x later => among x (List.mem_cons_of_mem _ later))
      (first.low_onward sound low) first.attained
    rw [follow, dif_pos fresh]
    exact first.trans rest
  | case3 v w ws s old stacked ih =>
    have edge := among w List.mem_cons_self
    have first := followed_stacked sound attained edge (sound.flagged.1 stacked)
    have rest := ih first.sound leads (fun x later => among x (List.mem_cons_of_mem _ later))
      (first.low_onward sound low) first.attained
    rw [follow, dif_neg old, if_pos stacked]
    exact first.trans rest
  | case4 v w ws s old done ih =>
    have edge := among w List.mem_cons_self
    have inside : w < s.number.size := sound.numbers ▸ (g.inside v w edge).2
    have first := followed_done sound attained (seen_of_not_isFresh inside old)
      (mt sound.flagged.2 done)
    have rest := ih sound leads (fun x later => among x (List.mem_cons_of_mem _ later)) low attained
    rw [follow, dif_neg old, if_neg done]
    exact first.trans rest

theorem visited_descend (sound : g.Sound [] s) (fresh : s.isFresh w) :
    g.Visited [] w s (g.descend s w) := by
  have same := sound.lowOf_enter fresh
  have followed := followed_follow (sound.enter fresh nofun) nofun (fun _ => id) (Nat.le_of_eq same)
    ⟨w, List.mem_cons_self, same.symm, .refl g w⟩
  rw [descend, if_pos fresh]
  exact followed.visited sound fresh

theorem sound_descend (sound : g.Sound [] s) (inside : w < g.size) :
    g.Sound [] (g.descend s w) ∧ Extends s (g.descend s w) ∧ (g.descend s w).Seen w := by
  by_cases fresh : s.isFresh w
  · have visited := visited_descend sound fresh
    exact ⟨visited.sound, visited.grown, visited.seen⟩
  · rw [descend, if_neg fresh]
    exact ⟨sound, .refl s, seen_of_not_isFresh (sound.numbers ▸ inside) fresh⟩

theorem sound_descendAll (sound : g.Sound [] s) {vs : List Nat} (inside : ∀ v ∈ vs, v < g.size) :
    g.Sound [] (vs.foldl g.descend s) ∧ Extends s (vs.foldl g.descend s) ∧
      ∀ v ∈ vs, (vs.foldl g.descend s).Seen v := by
  induction vs generalizing s with
  | nil => exact ⟨sound, .refl s, nofun⟩
  | cons v vs ih =>
    obtain ⟨here, inside⟩ := List.forall_mem_cons.1 inside
    obtain ⟨first, grown, seen⟩ := sound_descend sound here
    obtain ⟨last, further, all⟩ := ih first inside
    refine ⟨last, grown.trans further, List.forall_mem_cons.2 ⟨?_, all⟩⟩
    exact further.seen seen

theorem Settled.le {i j : Nat} {A B : List Nat} (settled : g.Settled found)
    (distinct : found.flatten.Nodup) (at_i : found.reverse[i]? = some A)
    (at_j : found.reverse[j]? = some B) (here : u ∈ A) (there : w ∈ B) (edge : w ∈ g.next u) :
    j ≤ i := by
  induction found generalizing i j with
  | nil => simp at at_i
  | cons C rest ih =>
    rw [List.flatten_cons, List.nodup_append'] at distinct
    rw [List.reverse_cons] at at_i at_j
    have bound : j < rest.length + 1 := by
      simpa using (List.getElem?_eq_some_iff.1 at_j).1
    rcases Nat.lt_or_ge i rest.length with before | last
    · rw [List.getElem?_append_left (by simpa using before)] at at_i
      have known : u ∈ rest.flatten :=
        List.mem_flatten.2 ⟨A, List.mem_reverse.1 (List.mem_of_getElem? at_i), here⟩
      rcases Nat.lt_or_ge j rest.length with before' | last'
      · rw [List.getElem?_append_left (by simpa using before')] at at_j
        exact ih settled.2 distinct.2.1 at_i at_j
      · -- the target would be in the component found last, and in one found before
        obtain rfl : j = rest.length := by omega
        obtain rfl : C = B := by simpa using at_j
        exact absurd (settled.2.next known edge) (distinct.2.2 there)
    · omega

theorem exists_searched (g : Adjacency) : ∃ t, g.Sound [] t ∧ g.components = t.found.reverse ∧
    t.found.flatten.Nodup ∧ ∀ v, v ∈ t.found.flatten ↔ v < g.size := by
  have inside : ∀ v ∈ List.range g.size, v < g.size := fun _ => List.mem_range.1
  obtain ⟨sound, -, seen⟩ := sound_descendAll (sound_start g) inside
  rw [components]
  generalize (List.range g.size).foldl g.descend (start g.size) = t at sound seen
  -- no node is being visited, so none is left on the stack
  have empty : t.stack = [] := by
    refine List.eq_nil_iff_forall_not_mem.2 fun x stacked => ?_
    obtain ⟨a, among, -⟩ := sound.grounded stacked
    exact absurd among List.not_mem_nil
  refine ⟨t, sound, rfl, by simpa [empty] using sound.distinct, fun v => ⟨?_, ?_⟩⟩
  · intro member
    exact sound.numbers ▸ inside_of_seen (sound.covered.2 (.inr member))
  · intro inside
    simpa [empty] using sound.covered.1 (seen v (List.mem_range.2 inside))

theorem perm_components (g : Adjacency) : g.components.flatten.Perm (List.range g.size) := by
  obtain ⟨t, -, found, distinct, covered⟩ := g.exists_searched
  rw [found]
  refine (List.reverse_perm t.found).flatten.trans ?_
  exact (List.perm_ext_iff_of_nodup distinct List.nodup_range).2 fun v =>
    (covered v).trans List.mem_range.symm

theorem isClass_component {C : List Nat} (member : C ∈ g.components) : g.IsClass C := by
  obtain ⟨t, sound, found, -⟩ := g.exists_searched
  exact sound.classes C (List.mem_reverse.1 (found ▸ member))

theorem exists_component (inside : v < g.size) : ∃ C ∈ g.components, v ∈ C :=
  List.mem_flatten.1 ((perm_components g).mem_iff.2 (List.mem_range.2 inside))

/-- The components are the classes of nodes that reach each other. Every node is in one of them, and
    those that edges of a component lead to are listed no later. -/
theorem components_correct (g : Adjacency) :
    g.components.flatten.Perm (List.range g.size) ∧
    (∀ u < g.size, ∀ w,
      (∃ C ∈ g.components, u ∈ C ∧ w ∈ C) ↔ g.Reaches u w ∧ g.Reaches w u) ∧
    (∀ C ∈ g.components, C ≠ []) ∧
    (∀ (i j : Nat) (A B : List Nat), g.components[i]? = some A → g.components[j]? = some B →
      ∀ u ∈ A, ∀ w ∈ B, w ∈ g.next u → j ≤ i) := by
  refine ⟨perm_components g, fun u inside w => ?_, fun C member => (isClass_component member).1, ?_⟩
  · constructor
    · rintro ⟨C, among, here, there⟩
      exact ((isClass_component among).2 u here w).1 there
    · intro both
      obtain ⟨C, among, here⟩ := exists_component inside
      exact ⟨C, among, here, ((isClass_component among).2 u here w).2 both⟩
  · intro i j A B at_i at_j u here w there edge
    obtain ⟨t, sound, found, distinct, -⟩ := g.exists_searched
    rw [found] at at_i at_j
    exact sound.settled.le distinct at_i at_j here there edge

example : (Digraph.ofEdges 4 [(0, 1), (1, 2), (2, 1), (2, 3)]).components = [[3], [2, 1], [0]] := by
  cbv

end Adjacency

end ClientScript
