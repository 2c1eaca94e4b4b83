import ClientScript.Graph.Dominance
import Mathlib.Computability.TuringMachine.StackTuringMachine
import Mathlib.Data.List.Permutation
import Mathlib.Data.Set.Card
import Mathlib.ModelTheory.Encoding

/-!
Dominators are found. Links lead to all dominators of a node at any time, for what is on every path
to a node is on every path to its predecessors. Once a pass changes nothing they lead nowhere else.
-/
namespace ClientScript

namespace Walk

variable {next : Nat → List Nat} {u v w : Nat} {nodes : List Nat}

theorem snoc (first : Walk next u v nodes) (edge : w ∈ next v) : Walk next u w (nodes ++ [w]) :=
  first.append (.step edge (.one w))

end Walk

namespace Adjacency

def Dominates (g : Adjacency) (entry a b : Nat) : Prop :=
  g.Reaches entry b ∧ ∀ nodes, Walk g.next entry b nodes → a ∈ nodes

def StrictlyDominates (g : Adjacency) (entry a b : Nat) : Prop := a ≠ b ∧ g.Dominates entry a b

end Adjacency

namespace Numbering

open Links

variable {g : Adjacency} {start : Nat} {n : Numbering g start} {l : Links} {s a m u v w x : Nat}
  {nodes : List Nat}

theorem number?_of_edge (known : (n.number? u).isSome) (edge : v ∈ g.next u) :
    (n.number? v).isSome := by
  obtain ⟨j, here⟩ := n.closed _ u v (number?_iff.1 (number?_of_isSome known)) edge
  rw [number?_iff.2 here]
  rfl

theorem number?_of_walk (walk : Walk g.next u v nodes) (known : (n.number? u).isSome) :
    (n.number? v).isSome := by
  induction walk with
  | one => exact known
  | step edge _ ih => exact ih (number?_of_edge known edge)

theorem reaches_of_number? {v : Nat} (known : (n.number? v).isSome) : g.Reaches start v := by
  by_cases first : v = start
  · subst first
    exact ⟨[v], .one v⟩
  · obtain ⟨p, edge, known', less⟩ := exists_feeding known first
    obtain ⟨nodes, walk⟩ := reaches_of_number? known'
    exact ⟨_, walk.snoc ((g.agree p v).1 edge)⟩
termination_by n.count - n.post v
decreasing_by
  have bound := post_lt (n := n) p
  omega

theorem number?_iff_reaches : (n.number? v).isSome ↔ g.Reaches start v :=
  ⟨reaches_of_number?, fun ⟨_, walk⟩ => number?_of_walk walk start_known⟩

/-- Of what a link leads to, with nothing but this pass below it, there is a way back on which no
    number is greater. -/
theorem Valid.walk_of_leads {w a : Nat} (valid : n.Valid (s + 1) l) (leads : l.Leads w a)
    (low : n.post a ≤ s) :
    ∃ nodes, Walk g.next a w nodes ∧ ∀ y ∈ nodes, n.post y ≤ n.post a := by
  by_cases first : w = start
  · subst first
    obtain rfl := valid.eq_start_of_leads leads
    exact ⟨[a], .one a, by simp⟩
  · cases leads with
    | here => exact ⟨[w], .one w, by simp⟩
    | @up _ i _ link rest =>
      have higher := valid.climbs w i link first
      have top := valid.post_le rest
      obtain ⟨p, edge, -, less, follows⟩ := valid.follows w i link first
      have leads := follows (.inr (by omega))
      have above := valid.post_le leads
      obtain ⟨xs, to_i, low_xs⟩ := valid.walk_of_leads rest low
      obtain ⟨ys, to_p, low_ys⟩ := valid.walk_of_leads leads (by omega)
      obtain ⟨zs, rfl⟩ := to_p.starts
      refine ⟨xs ++ zs ++ [w], ?_, fun y member => ?_⟩
      · rw [List.append_assoc]
        exact to_i.append (to_p.snoc ((g.agree p w).1 edge))
      · simp only [List.mem_append, List.mem_singleton] at member
        rcases member with (among | among) | rfl
        · exact low_xs y among
        · exact Nat.le_trans (low_ys y (List.mem_cons_of_mem _ among)) top
        · omega
termination_by n.count - n.post w
decreasing_by
  all_goals
    have bound := post_lt (n := n) a
    omega

/-- Whatever is on all paths to a linked node, the links lead to. -/
def Complete (g : Adjacency) (start : Nat) (l : Links) : Prop :=
  ∀ v x, l.IsSet v → (∀ nodes, Walk g.next start v nodes → x ∈ nodes) → l.Leads v x

theorem complete_first (known : start < g.size) : Complete g start (first g.size start) := by
  intro v x isSet all
  rw [IsSet, up_first known] at isSet
  split at isSet
  · rename_i root
    subst root
    obtain rfl := List.mem_singleton.1 (all [v] (.one v))
    exact .here x
  · cases isSet

section

variable (complete : Complete g start l) (valid : n.Valid (s + 1) l) (here : n.number? v = some s)
  (other : v ≠ start) (meets : MeetsAll l (g.prev v) (some m))
include complete valid here other meets

theorem leads_of_on_paths (all : ∀ nodes, Walk g.next start v nodes → x ∈ nodes) :
    (l.relink v m).Leads v x := by
  by_cases same : x = v
  · exact same ▸ .here x
  · have link : (l.relink v m).up v = some m := by rw [valid.up_relink here, if_pos rfl]
    refine .up link (valid.leads_relink_of_lt here ?_ (valid.post_lt_nearest here other meets))
    refine meets.2.2 x fun p edge isSet => complete p x isSet fun nodes walk => ?_
    have longer := all _ (walk.snoc ((g.agree p v).1 edge))
    simpa [same] using longer

theorem Complete.relink : Complete g start (l.relink v m) := by
  intro w x isSet all
  by_cases same : w = v
  · subst same
    exact leads_of_on_paths complete valid here other meets all
  · have before : l.IsSet w := by rwa [IsSet, valid.up_relink here, if_neg same] at isSet
    rcases valid.leads_relink here (complete w x before all) with kept | ⟨to_v, less⟩
    · exact kept
    -- A path to the node that is linked anew goes on to the other one without what is above.
    · have post := post_of_number? here
      obtain ⟨ys, onward, low⟩ := valid.walk_of_leads to_v (Nat.le_of_eq post)
      obtain ⟨zs, rfl⟩ := onward.starts
      refine (valid.leads_relink_of_le here to_v (Nat.le_refl _)).trans ?_
      refine leads_of_on_paths complete valid here other meets fun xs walk => ?_
      refine (List.mem_append.1 (all _ (walk.append onward))).resolve_right fun among => ?_
      have below := low x (List.mem_cons_of_mem _ among)
      omega

end

theorem Complete.visit (complete : Complete g start l) (valid : n.Valid (s + 1) l)
    (climbs : n.Climbs l) (here : n.number? v = some s) :
    Complete g start (n.visit l climbs v).1 := by
  rcases visit_cases valid climbs here with ⟨-, visited⟩ | ⟨m, other, meets, visited⟩
  · rwa [visited]
  · rw [visited]
    exact complete.relink valid here other meets

theorem Complete.sweep (complete : Complete g start l) (valid : n.Valid s l)
    (bound : s ≤ n.count) : Complete g start (n.sweep s l valid bound).1 := by
  induction s generalizing l with
  | zero => exact complete
  | succ s ih =>
    have here := number?_order bound
    exact ih (complete.visit valid _ here) (valid.visit _ here) (Nat.le_of_succ_le bound)

theorem Complete.settle {changed : Bool} (complete : Complete g start l)
    (valid : n.Valid n.count l) : Complete g start (n.settle l changed valid) := by
  fun_induction Numbering.settle n l changed valid with
  | case1 => exact complete
  | case2 l valid _ ih => exact ih (complete.sweep valid _)

theorem visit_unchanged (valid : n.Valid (s + 1) l) (climbs : n.Climbs l)
    (here : n.number? v = some s) (same : (n.visit l climbs v).2 = false) :
    (n.visit l climbs v).1 = l ∧ (v ≠ start → MeetsAll l (g.prev v) (l.up v)) := by
  rcases visit_cases valid climbs here with ⟨root, visited⟩ | ⟨m, other, meets, visited⟩
  · rw [visited]
    exact ⟨rfl, fun other => absurd root other⟩
  · rw [visited] at same ⊢
    have link : l.up v = some m := by simpa using same
    have inside : v < l.size := by
      rw [valid.size]
      exact inside_of_number? here
    exact ⟨relink_up inside link, fun _ => link ▸ meets⟩

theorem sweep_unchanged (valid : n.Valid s l) (bound : s ≤ n.count)
    (same : (n.sweep s l valid bound).2 = false) : (n.sweep s l valid bound).1 = l ∧
      ∀ v i, n.number? v = some i → i < s → v ≠ start → MeetsAll l (g.prev v) (l.up v) := by
  induction s generalizing l with
  | zero => exact ⟨rfl, fun _ _ _ less => absurd less (Nat.not_lt_zero _)⟩
  | succ s ih =>
    have here := number?_order bound
    obtain ⟨now, later⟩ := Bool.or_eq_false_iff.1 same
    obtain ⟨kept, meets⟩ := visit_unchanged valid valid.goesUp here now
    obtain ⟨kept', meets'⟩ :=
      ih (valid.visit valid.goesUp here) (Nat.le_of_succ_le bound) later
    refine ⟨kept'.trans kept, fun v i known less => ?_⟩
    rcases Nat.lt_succ_iff_lt_or_eq.1 less with below | rfl
    · exact kept ▸ meets' v i known below
    · have at_v : n.order[i] = v :=
        Option.some.inj ((number?_iff.1 here).symm.trans (number?_iff.1 known))
      exact at_v ▸ meets

def Stable (n : Numbering g start) (l : Links) : Prop :=
  ∀ v, (n.number? v).isSome → v ≠ start → MeetsAll l (g.prev v) (l.up v)

theorem Stable.settle (valid : n.Valid n.count l) (changed : Bool)
    (last : changed = false → Stable n l) : Stable n (n.settle l changed valid) := by
  fun_induction Numbering.settle n l changed valid with
  | case1 l valid => exact last rfl
  | case2 l valid swept ih =>
    refine ih fun unchanged => ?_
    obtain ⟨kept, meets⟩ := sweep_unchanged valid (Nat.le_refl _) unchanged
    intro v known other
    have number := number?_of_isSome known
    exact kept ▸ meets v _ number (lt_count number) other

section

variable (valid : n.Valid 0 l) (stable : Stable n l)
include valid stable

/-- On the way to a node, what its links lead to has been passed, or is still led to. -/
theorem mem_or_leads (walk : Walk g.next u v nodes) (known : (n.number? u).isSome)
    (leads : l.Leads v x) : x ∈ nodes ∨ l.Leads u x := by
  induction walk with
  | one => exact .inr leads
  | @step u w v nodes edge rest ih =>
    have known' := number?_of_edge known edge
    rcases ih known' leads with passed | leads'
    · exact .inl (List.mem_cons_of_mem _ passed)
    · by_cases first : w = start
      · subst first
        obtain rfl := valid.eq_start_of_leads leads'
        obtain ⟨zs, rfl⟩ := rest.starts
        exact .inl (List.mem_cons_of_mem _ List.mem_cons_self)
      · cases leads' with
        | here =>
          obtain ⟨zs, rfl⟩ := rest.starts
          exact .inl (List.mem_cons_of_mem _ List.mem_cons_self)
        | @up _ i _ link onward =>
          have meets := stable w known' first
          rw [link] at meets
          have isSet := valid.done u known (Nat.zero_le _)
          exact .inr ((meets.2.1 u ((g.agree u w).2 edge) isSet).trans onward)

theorem leads_iff_dominates (complete : Complete g start l) (known : (n.number? v).isSome) :
    l.Leads v x ↔ g.Dominates start x v := by
  constructor
  · intro leads
    refine ⟨reaches_of_number? known, fun nodes walk => ?_⟩
    rcases mem_or_leads valid stable walk start_known leads with passed | top
    · exact passed
    · obtain rfl := valid.eq_start_of_leads top
      obtain ⟨zs, rfl⟩ := walk.starts
      exact List.mem_cons_self
  · intro dominates
    exact complete v x (valid.done v known (Nat.zero_le _)) dominates.2

end

end Numbering

namespace DominatorTree

open ClientScript.Numbering

theorem chain_cons (t : DominatorTree) (v : Nat) : ∃ rest, t.chain v = v :: rest := by
  rw [chain]
  split
  · exact ⟨_, rfl⟩
  · exact ⟨[], rfl⟩

section

variable {g : Adjacency} {entry : Nat} {n : Numbering g entry} {l : Links}
  (valid : n.Valid 0 l) {v d x : Nat}

theorem immediate?_ofLinks :
    (ofLinks n l valid).immediate? v = some d ↔ v ≠ entry ∧ l.up v = some d :=
  immediate?_eq_some

theorem isReachable_ofLinks : (ofLinks n l valid).isReachable v ↔ (n.number? v).isSome := by
  rw [isReachable, Bool.or_eq_true, beq_iff_eq, Option.isSome_iff_exists]
  constructor
  · rintro (rfl | ⟨d, link⟩)
    · exact start_known
    · refine valid.numbered v ?_
      rw [Links.IsSet, ((immediate?_ofLinks valid).1 link).2]
      rfl
  · intro known
    by_cases first : v = entry
    · exact .inl first
    · obtain ⟨d, link⟩ := Option.isSome_iff_exists.1 (valid.done v known (Nat.zero_le _))
      exact .inr ⟨d, (immediate?_ofLinks valid).2 ⟨first, link⟩⟩

theorem mem_chain_ofLinks : x ∈ (ofLinks n l valid).chain v ↔ l.Leads v x := by
  fun_induction (ofLinks n l valid).chain v with
  | case1 v d found ih =>
    obtain ⟨-, link⟩ := (immediate?_ofLinks valid).1 found
    rw [List.mem_cons, ih, Links.Leads.iff_of_link link]
  | case2 v none =>
    rw [List.mem_singleton]
    refine ⟨fun same => same ▸ .here x, fun leads => ?_⟩
    by_cases first : v = entry
    · subst first
      exact valid.eq_start_of_leads leads
    · cases leads with
      | here => rfl
      | up link _ => simp [(immediate?_ofLinks valid).2 ⟨first, link⟩] at none

theorem nodup_chain_ofLinks : ((ofLinks n l valid).chain v).Nodup := by
  fun_induction (ofLinks n l valid).chain v with
  | case1 v d found ih =>
    refine List.nodup_cons.2 ⟨fun again => ?_, ih⟩
    obtain ⟨other, link⟩ := (immediate?_ofLinks valid).1 found
    have higher := valid.climbs v d link other
    have above := valid.post_le ((mem_chain_ofLinks valid).1 again)
    omega
  | case2 v => exact List.nodup_singleton v

theorem size_enter (idom : Array (Option Nat)) (below : Array (List Nat)) (v : Nat) :
    (enter entry idom below v).size = below.size := by
  unfold enter
  split
  · split
    · rfl
    · exact Array.size_modify
  · rfl

theorem getD_enter {idom : Array (Option Nat)} {below : Array (List Nat)} (inside : d < below.size)
    (v : Nat) : (enter entry idom below v)[d]?.getD [] = below[d]?.getD [] ++
      [v].filter fun v => v != entry && idom[v]?.join == some d := by
  unfold enter
  split
  · rename_i i link
    split
    · rename_i first
      simp [first]
    · rename_i other
      rw [Array.getElem?_modify]
      by_cases same : i = d
      · subst same
        simp [link, other, inside]
      · simp [link, same]
  · rename_i none
    simp [none]

theorem getD_foldl_enter (idom : Array (Option Nat)) (vs : List Nat) {below : Array (List Nat)}
    (inside : d < below.size) : (vs.foldl (enter entry idom) below)[d]?.getD [] =
      below[d]?.getD [] ++ vs.filter fun v => v != entry && idom[v]?.join == some d := by
  induction vs generalizing below with
  | nil => simp
  | cons v vs ih =>
    rw [List.foldl_cons, ih (by rwa [size_enter]), getD_enter inside, List.append_assoc,
      ← List.filter_append, List.singleton_append]

theorem size_foldl_enter (idom : Array (Option Nat)) (vs : List Nat) (below : Array (List Nat)) :
    (vs.foldl (enter entry idom) below).size = below.size := by
  induction vs generalizing below with
  | nil => rfl
  | cons v vs ih => rw [List.foldl_cons, ih, size_enter]

theorem children_ofLinks (inside : d < g.size) : (ofLinks n l valid).children d =
    (List.range g.size).filter fun v => v != entry && l.up v == some d := by
  rw [children, ofLinks, getD_foldl_enter _ _ (by rwa [Array.size_replicate])]
  simp [inside, Links.up]

theorem children_ofLinks_of_outside (outside : ¬ d < g.size) :
    (ofLinks n l valid).children d = [] := by
  have beyond : ¬ d < (ofLinks n l valid).below.size := by
    rwa [ofLinks, size_foldl_enter, Array.size_replicate]
  rw [children, Array.getElem?_eq_none (Nat.le_of_not_lt beyond)]
  rfl

theorem mem_children_ofLinks :
    v ∈ (ofLinks n l valid).children d ↔ (ofLinks n l valid).immediate? v = some d := by
  rw [immediate?_ofLinks]
  by_cases inside : d < g.size
  · rw [children_ofLinks valid inside, List.mem_filter, List.mem_range, Bool.and_eq_true,
      bne_iff_ne, beq_iff_eq]
    refine and_iff_right_of_imp fun h => ?_
    have known := valid.numbered v (by rw [Links.IsSet, h.2]; rfl)
    exact inside_of_number? (number?_of_isSome known)
  · rw [children_ofLinks_of_outside valid inside]
    refine ⟨fun member => absurd member List.not_mem_nil, fun h => absurd ?_ inside⟩
    have known := valid.numbered d (valid.lands v d h.2)
    exact inside_of_number? (number?_of_isSome known)

theorem pairwise_children_ofLinks : ((ofLinks n l valid).children d).Pairwise (· < ·) := by
  by_cases inside : d < g.size
  · rw [children_ofLinks valid inside]
    exact List.pairwise_lt_range.filter _
  · rw [children_ofLinks_of_outside valid inside]
    exact .nil

end

end DominatorTree

namespace Adjacency

open ClientScript.Numbering

variable {g : Adjacency} {entry a b d v : Nat}

theorem dominators_ofLinks (inside : entry < g.size) :
    ∃ (n : Numbering g entry) (l : Links) (valid : n.Valid 0 l),
      g.dominators entry = .ofLinks n l valid ∧ Stable n l ∧ Complete g entry l := by
  have valid := valid_first (n := g.numbering entry inside) inside
  refine ⟨g.numbering entry inside, _, valid.settle true (absurd · (by decide)), ?_,
    Stable.settle valid true (absurd · (by decide)), (complete_first inside).settle valid⟩
  rw [dominators, dif_pos inside]

variable (inside : entry < g.size)
include inside

theorem isReachable_dominators : (g.dominators entry).isReachable v ↔ g.Reaches entry v := by
  obtain ⟨n, l, valid, tree, -, -⟩ := dominators_ofLinks inside
  rw [tree, DominatorTree.isReachable_ofLinks, number?_iff_reaches]

theorem mem_chain_dominators (reached : g.Reaches entry b) :
    a ∈ (g.dominators entry).chain b ↔ g.Dominates entry a b := by
  obtain ⟨n, l, valid, tree, stable, complete⟩ := dominators_ofLinks inside
  rw [tree, DominatorTree.mem_chain_ofLinks,
    leads_iff_dominates valid stable complete (number?_iff_reaches.2 reached)]

theorem Dominates.reaches (dominates : g.Dominates entry a b) : g.Reaches entry a := by
  obtain ⟨n, l, valid, -, stable, complete⟩ := dominators_ofLinks inside
  have known : (n.number? b).isSome := number?_iff_reaches.2 dominates.1
  have leads := (leads_iff_dominates valid stable complete known).2 dominates
  have isSet := valid.isSet_of_leads (valid.done b known (Nat.zero_le _)) leads
  exact number?_iff_reaches.1 (valid.numbered a isSet)

theorem dominates_dominators : (g.dominators entry).dominates a b ↔ g.Dominates entry a b := by
  rw [DominatorTree.dominates, Bool.and_eq_true, Bool.and_eq_true, List.contains_iff_mem,
    isReachable_dominators inside, isReachable_dominators inside]
  constructor
  · rintro ⟨⟨reached, -⟩, member⟩
    exact (mem_chain_dominators inside reached).1 member
  · intro dominates
    exact ⟨⟨dominates.1, dominates.reaches inside⟩,
      (mem_chain_dominators inside dominates.1).2 dominates⟩

theorem immediate?_dominators : (g.dominators entry).immediate? v = some d ↔
    v ≠ entry ∧ g.StrictlyDominates entry d v ∧
      ∀ e, e ≠ d → g.StrictlyDominates entry e v → g.Dominates entry e d := by
  obtain ⟨n, l, valid, tree, stable, complete⟩ := dominators_ofLinks inside
  have leads_iff {u x : Nat} (isSet : l.IsSet u) :
      l.Leads u x ↔ g.Dominates entry x u :=
    leads_iff_dominates valid stable complete (valid.numbered u isSet)
  rw [tree, DominatorTree.immediate?_ofLinks]
  refine and_congr_right fun other => ?_
  constructor
  · intro link
    have isSet : l.IsSet v := by rw [Links.IsSet, link]; rfl
    have isSet' := valid.lands v d link
    refine ⟨⟨valid.link_ne link other, (leads_iff isSet).1 (.up link (.here d))⟩,
      fun e _ strict => ?_⟩
    have rest := (Links.Leads.iff_of_link link).1 ((leads_iff isSet).2 strict.2)
    exact (leads_iff isSet').1 (rest.resolve_left strict.1)
  · rintro ⟨strict, nearest⟩
    have isSet := valid.done v (number?_iff_reaches.2 strict.2.1) (Nat.zero_le _)
    obtain ⟨i, link⟩ := Option.isSome_iff_exists.1 isSet
    have isSet' := valid.lands v i link
    have leads := (Links.Leads.iff_of_link link).1 ((leads_iff isSet).2 strict.2)
    have rest := leads.resolve_left strict.1
    rcases valid.eq_or_lt rest with rfl | less
    · exact link
    · have back := nearest i (by rintro rfl; omega)
        ⟨valid.link_ne link other, (leads_iff isSet).1 (.up link (.here i))⟩
      have isSet_d := valid.isSet_of_leads isSet' rest
      have above := valid.post_le ((leads_iff isSet_d).2 back)
      omega

theorem mem_children_dominators :
    v ∈ (g.dominators entry).children d ↔ (g.dominators entry).immediate? v = some d := by
  obtain ⟨n, l, valid, tree, -, -⟩ := dominators_ofLinks inside
  rw [tree, DominatorTree.mem_children_ofLinks]

theorem pairwise_children_dominators : ((g.dominators entry).children d).Pairwise (· < ·) := by
  obtain ⟨n, l, valid, tree, -, -⟩ := dominators_ofLinks inside
  rw [tree]
  exact DominatorTree.pairwise_children_ofLinks valid

theorem depth_dominators (reached : g.Reaches entry v) :
    ({a | g.StrictlyDominates entry a v} : Set Nat).encard = (g.dominators entry).depth v := by
  obtain ⟨rest, shown⟩ := (g.dominators entry).chain_cons v
  have distinct : (v :: rest).Nodup := by
    obtain ⟨n, l, valid, tree, -, -⟩ := dominators_ofLinks inside
    rw [← shown, tree]
    exact DominatorTree.nodup_chain_ofLinks valid
  obtain ⟨fresh, distinct⟩ := List.nodup_cons.1 distinct
  have same : ({a | g.StrictlyDominates entry a v} : Set Nat) = (rest.toFinset : Set Nat) := by
    ext a
    rw [Set.mem_ofPred_eq, List.coe_toFinset, Set.mem_ofPred_eq, StrictlyDominates,
      ← mem_chain_dominators inside reached, shown, List.mem_cons]
    constructor
    · rintro ⟨differ, same | member⟩
      · exact absurd same differ
      · exact member
    · intro member
      exact ⟨fun same => fresh (same ▸ member), .inr member⟩
  rw [same, Set.encard_coe_eq_coe_finsetCard, List.toFinset_card_of_nodup distinct,
    DominatorTree.depth, shown]
  rfl

/-- The dominator tree says what the paths from the entry say. -/
theorem dominators_correct :
    (∀ v, (g.dominators entry).isReachable v ↔ g.Reaches entry v) ∧
    (∀ a b, (g.dominators entry).dominates a b ↔ g.Dominates entry a b) ∧
    (∀ v d, (g.dominators entry).immediate? v = some d ↔
      v ≠ entry ∧ g.StrictlyDominates entry d v ∧
        ∀ e, e ≠ d → g.StrictlyDominates entry e v → g.Dominates entry e d) ∧
    (∀ v d, v ∈ (g.dominators entry).children d ↔ (g.dominators entry).immediate? v = some d) ∧
    (∀ d, ((g.dominators entry).children d).Pairwise (· < ·)) ∧
    (∀ v, g.Reaches entry v →
      ({a | g.StrictlyDominates entry a v} : Set Nat).encard = (g.dominators entry).depth v) :=
  ⟨fun _ => isReachable_dominators inside, fun _ _ => dominates_dominators inside,
    fun _ _ => immediate?_dominators inside, fun _ _ => mem_children_dominators inside,
    fun _ => pairwise_children_dominators inside, fun _ => depth_dominators inside⟩

end Adjacency

namespace Sample

/-- From node 0 both nodes of the cycle 1, 2 can be entered. Node 3 has a loop and is entered by two
    edges from node 1; node 4 leads to it, but cannot be reached. -/
def irreducible : Digraph :=
  .ofEdges 5 [(0, 1), (0, 2), (1, 2), (2, 1), (1, 3), (1, 3), (3, 3), (4, 3)]

/-- Node 1 is on every path to node 3, and node 2 on some but not on all. -/
theorem irreducible_dominated : 0 < irreducible.size ∧
    irreducible.adjacency.Dominates 0 1 3 ∧ ¬ irreducible.adjacency.Dominates 0 2 3 ∧
    ¬ irreducible.adjacency.Reaches 0 4 ∧ (irreducible.dominators 0).children 0 = [1, 2] ∧
    ({a | irreducible.adjacency.StrictlyDominates 0 a 3} : Set Nat).encard = 2 := by
  have inside : 0 < irreducible.adjacency.size := by decide
  obtain ⟨reaches, dominates, -, -, -, depth⟩ := Adjacency.dominators_correct inside
  -- `cbv` opens `Option.isNone`, `Option.join` and `Prod.snd` by equations from the imports.
  have apart : (irreducible.dominators 0).dominates 2 3 = false := by cbv
  have unreached : (irreducible.dominators 0).isReachable 4 = false := by cbv
  have reached : (irreducible.dominators 0).isReachable 3 = true := by cbv
  have deep : (irreducible.dominators 0).depth 3 = 2 := by cbv
  refine ⟨inside, (dominates 1 3).1 ?_, fun h => ?_, fun h => ?_, by cbv, ?_⟩
  · change (irreducible.dominators 0).dominates 1 3 = true
    cbv
  · exact Bool.false_ne_true (apart.symm.trans ((dominates 2 3).2 h))
  · exact Bool.false_ne_true (unreached.symm.trans ((reaches 4).2 h))
  · exact (depth 3 ((reaches 3).1 reached)).trans (congrArg Nat.cast deep)

end Sample

end ClientScript
