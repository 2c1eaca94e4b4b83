import ClientScript.Graph.Numbering

/-!
Links toward the start. While dominators are computed, a node whose predecessors have been looked
at is linked to the nearest node in which their own links meet; the start is linked to itself.
Links go up in number, so two chains of links meet. A pass looks at the nodes in descending order,
and what it has left of them is the stage of the links. No pass takes a link down again, which is
why the passes end.
-/
namespace ClientScript

abbrev Links := Array (Option Nat)

namespace Links

def up (l : Links) (v : Nat) : Option Nat := l[v]?.join

def IsSet (l : Links) (v : Nat) : Prop := (l.up v).isSome

inductive Leads (l : Links) : Nat → Nat → Prop where
  | here (v : Nat) : Leads l v v
  | up {v p x : Nat} (link : l.up v = some p) (rest : Leads l p x) : Leads l v x

def relink (l : Links) (v m : Nat) : Links := l.setIfInBounds v (some m)

def first (size start : Nat) : Links := relink (Array.replicate size none) start start

variable {l : Links} {a b u v x m : Nat}

theorem up_relink (inside : v < l.size) (w : Nat) :
    (l.relink v m).up w = if w = v then some m else l.up w := by
  rw [up, relink, Array.getElem?_setIfInBounds]
  by_cases same : v = w
  · subst same
    simp [inside]
  · rw [if_neg same, if_neg (Ne.symm same)]
    rfl

theorem relink_up (inside : v < l.size) (linked : l.up v = some m) : l.relink v m = l := by
  have entry : l[v] = some m := by simpa [up, inside] using linked
  apply Array.ext (Array.size_setIfInBounds)
  intro i _ _
  change (Array.setIfInBounds l v (some m))[i] = l[i]
  rw [Array.getElem_setIfInBounds]
  split
  · rename_i same
    subst same
    exact entry.symm
  · rfl

namespace Leads

theorem trans (first : l.Leads a b) (later : l.Leads b x) : l.Leads a x := by
  induction first with
  | here => exact later
  | up link _ ih => exact .up link (ih later)

theorem iff_of_link {p : Nat} (link : l.up v = some p) : l.Leads v x ↔ x = v ∨ l.Leads p x := by
  constructor
  · intro leads
    cases leads with
    | here => exact .inl rfl
    | up link' rest =>
      obtain rfl := Option.some.inj (link.symm.trans link')
      exact .inr rest
  · rintro (rfl | rest)
    · exact .here x
    · exact .up link rest

theorem either (first : l.Leads a b) (second : l.Leads a x) : l.Leads b x ∨ l.Leads x b := by
  induction first with
  | here => exact .inl second
  | @up a p b link rest ih =>
    rcases (iff_of_link link).1 second with rfl | later
    · exact .inr (.up link rest)
    · exact ih later

end Leads

end Links

namespace Numbering

open Links

variable {g : Adjacency} {start : Nat} (n : Numbering g start)

def Climbs (l : Links) : Prop := ∀ v p, l.up v = some p → p ≠ v → n.post v < n.post p

def meet (l : Links) (climbs : n.Climbs l) (a b : Nat) : Nat :=
  if a = b then a
  else if n.post a < n.post b then
    match _h : l.up a with
    | some p => if _moves : p ≠ a then meet l climbs p b else b
    | none => b
  else if n.post b < n.post a then
    match _h : l.up b with
    | some p => if _moves : p ≠ b then meet l climbs a p else a
    | none => a
  else a
termination_by (n.count - n.post a) + (n.count - n.post b)
decreasing_by
  · have higher := climbs a p _h _moves
    have bound := post_lt (n := n) p
    omega
  · have higher := climbs b p _h _moves
    have bound := post_lt (n := n) p
    omega

/-- A predecessor that has a number and a link counts. -/
def nearer (l : Links) (climbs : n.Climbs l) (best : Option Nat) (p : Nat) : Option Nat :=
  if (n.number? p).isNone ∨ (l.up p).isNone then best
  else
    match best with
    | none => some p
    | some m => some (n.meet l climbs p m)

def nearest (l : Links) (climbs : n.Climbs l) (v : Nat) : Option Nat :=
  (g.prev v).foldl (n.nearer l climbs) none

/-- What holds of the links when the nodes with numbers below `s` are still to be looked at in a
    pass. -/
structure Valid (s : Nat) (l : Links) : Prop where
  size : l.size = g.size
  root : l.up start = some start
  climbs : ∀ v p, l.up v = some p → v ≠ start → n.post v < n.post p
  numbered : ∀ v, l.IsSet v → (n.number? v).isSome
  lands : ∀ v p, l.up v = some p → l.IsSet p
  done : ∀ v, (n.number? v).isSome → s ≤ n.post v → l.IsSet v
  /-- A node was linked to what a predecessor with a greater number leads to. It still leads there
      if the link is of this pass, or to a node not yet looked at. -/
  follows : ∀ v i, l.up v = some i → v ≠ start → ∃ p ∈ g.prev v, l.IsSet p ∧
    n.post v < n.post p ∧ (s ≤ n.post v ∨ n.post i < s → l.Leads p i)
  /-- What all predecessors lead to, the link leads to. -/
  covers : ∀ v i x, l.up v = some i → v ≠ start →
    (∀ p ∈ g.prev v, l.IsSet p → l.Leads p x) → l.Leads i x

variable {n} {l : Links} {s : Nat} {a b v w x m : Nat}

namespace Valid

theorem goesUp (valid : n.Valid s l) : n.Climbs l := by
  intro v p linked moves
  by_cases first : v = start
  · subst first
    exact absurd (Option.some.inj (linked.symm.trans valid.root)) moves
  · exact valid.climbs v p linked first

theorem set_start (valid : n.Valid s l) : l.IsSet start := by
  rw [IsSet, valid.root]
  rfl

theorem link_ne (valid : n.Valid s l) {p : Nat} (link : l.up v = some p) (other : v ≠ start) :
    p ≠ v := by
  rintro rfl
  exact Nat.lt_irrefl _ (valid.climbs p p link other)

theorem eq_or_lt (valid : n.Valid s l) (leads : l.Leads a x) : a = x ∨ n.post a < n.post x := by
  induction leads with
  | here => exact .inl rfl
  | @up v p x link rest ih =>
    by_cases first : v = start
    · subst first
      obtain rfl := Option.some.inj (link.symm.trans valid.root)
      exact ih
    · have higher := valid.climbs v p link first
      rcases ih with rfl | above
      · exact .inr higher
      · exact .inr (Nat.lt_trans higher above)

theorem post_le (valid : n.Valid s l) (leads : l.Leads a x) : n.post a ≤ n.post x := by
  rcases valid.eq_or_lt leads with rfl | less
  · exact Nat.le_refl _
  · exact Nat.le_of_lt less

theorem isSet_of_leads (valid : n.Valid s l) (isSet : l.IsSet a) (leads : l.Leads a x) :
    l.IsSet x := by
  induction leads with
  | here => exact isSet
  | up link _ ih => exact ih (valid.lands _ _ link)

theorem eq_start_of_leads (valid : n.Valid s l) (leads : l.Leads start x) : x = start := by
  rcases valid.eq_or_lt leads with rfl | less
  · rfl
  · by_cases first : x = start
    · exact first
    · have isSet := valid.isSet_of_leads valid.set_start leads
      have below := post_lt_start (valid.numbered x isSet) first
      omega

end Valid

structure Meets (l : Links) (a b m : Nat) : Prop where
  isSet : l.IsSet m
  left : l.Leads a m
  right : l.Leads b m
  first : ∀ x, l.Leads a x → l.Leads b x → l.Leads m x

theorem Meets.symm (h : Meets l a b m) : Meets l b a m :=
  ⟨h.isSet, h.right, h.left, fun x hb ha => h.first x ha hb⟩

theorem Meets.up (valid : n.Valid s l) (lower : n.post a < n.post b) {p : Nat}
    (link : l.up a = some p) (h : Meets l p b m) : Meets l a b m := by
  refine ⟨h.isSet, .up link h.left, h.right, fun x first second => ?_⟩
  rcases (Links.Leads.iff_of_link link).1 first with rfl | rest
  · have below := valid.post_le second
    omega
  · exact h.first x rest second

theorem Valid.link_of_lt (valid : n.Valid s l) (ha : l.IsSet a) (hb : l.IsSet b)
    (lower : n.post a < n.post b) : ∃ p, l.up a = some p ∧ p ≠ a := by
  obtain ⟨p, link⟩ := Option.isSome_iff_exists.1 ha
  refine ⟨p, link, ?_⟩
  rintro rfl
  by_cases first : p = start
  · subst first
    by_cases same : b = p
    · subst same
      omega
    · have below := post_lt_start (valid.numbered b hb) same
      omega
  · have higher := valid.climbs p p link first
    omega

theorem meets_meet (valid : n.Valid s l) (climbs : n.Climbs l) (ha : l.IsSet a) (hb : l.IsSet b) :
    Meets l a b (n.meet l climbs a b) := by
  fun_induction n.meet l climbs a b with
  | case1 a => exact ⟨ha, .here a, .here a, fun _ h _ => h⟩
  | case2 a b _ lower p link _ ih =>
    exact (ih (valid.lands a p link) hb).up valid lower link
  | case3 a b _ lower p link same =>
    obtain ⟨p', link', moves⟩ := valid.link_of_lt ha hb lower
    obtain rfl := Option.some.inj (link.symm.trans link')
    exact absurd moves same
  | case4 a b _ lower none =>
    obtain ⟨p', link', -⟩ := valid.link_of_lt ha hb lower
    simp [none] at link'
  | case5 a b _ _ lower p link _ ih =>
    exact ((ih ha (valid.lands b p link)).symm.up valid lower link).symm
  | case6 a b _ _ lower p link same =>
    obtain ⟨p', link', moves⟩ := valid.link_of_lt hb ha lower
    obtain rfl := Option.some.inj (link.symm.trans link')
    exact absurd moves same
  | case7 a b _ _ lower none =>
    obtain ⟨p', link', -⟩ := valid.link_of_lt hb ha lower
    simp [none] at link'
  | case8 a b other above below =>
    have same : n.post a = n.post b := by omega
    exact absurd (eq_of_post_eq (valid.numbered a ha) (valid.numbered b hb) same) other

def MeetsAll (l : Links) (ps : List Nat) : Option Nat → Prop
  | none => ∀ p ∈ ps, ¬ l.IsSet p
  | some m => l.IsSet m ∧ (∀ p ∈ ps, l.IsSet p → l.Leads p m) ∧
      ∀ x, (∀ p ∈ ps, l.IsSet p → l.Leads p x) → l.Leads m x

theorem meetsAll_nearer (valid : n.Valid s l) (climbs : n.Climbs l) {ps : List Nat}
    {best : Option Nat} (h : MeetsAll l ps best) (p : Nat) :
    MeetsAll l (ps ++ [p]) (n.nearer l climbs best p) := by
  have among {P : Nat → Prop} : (∀ q ∈ ps ++ [p], P q) ↔ (∀ q ∈ ps, P q) ∧ P p := by
    simp [or_imp, forall_and]
  unfold nearer
  split
  · rename_i skipped
    have unset : ¬ l.IsSet p := by
      intro isSet
      rcases skipped with unknown | none
      · have known := valid.numbered p isSet
        rw [Option.isNone_iff_eq_none.1 unknown] at known
        exact Bool.false_ne_true known
      · rw [IsSet, Option.isNone_iff_eq_none.1 none] at isSet
        exact Bool.false_ne_true isSet
    cases best with
    | none => exact among.2 ⟨h, unset⟩
    | some m =>
      exact ⟨h.1, among.2 ⟨h.2.1, fun isSet => absurd isSet unset⟩,
        fun x all => h.2.2 x (among.1 all).1⟩
  · rename_i counted
    have isSet : l.IsSet p := by
      rw [IsSet, ← Option.not_isNone, Bool.not_eq_true', Bool.eq_false_iff]
      exact fun none => counted (.inr none)
    cases best with
    | none =>
      exact ⟨isSet, among.2 ⟨fun q member set => absurd set (h q member), fun _ => .here p⟩,
        fun x all => (among.1 all).2 isSet⟩
    | some m =>
      have meets := meets_meet valid climbs isSet h.1
      refine ⟨meets.isSet, among.2 ⟨fun q member set => ?_, fun _ => meets.left⟩, fun x all => ?_⟩
      · exact (h.2.1 q member set).trans meets.right
      · exact meets.first x ((among.1 all).2 isSet) (h.2.2 x (among.1 all).1)

theorem meetsAll_nearest (valid : n.Valid s l) (climbs : n.Climbs l) (v : Nat) :
    MeetsAll l (g.prev v) (n.nearest l climbs v) := by
  suffices general : ∀ (qs ps : List Nat) (best : Option Nat), MeetsAll l qs best →
      MeetsAll l (qs ++ ps) (ps.foldl (n.nearer l climbs) best) by
    exact general [] (g.prev v) none fun p member => absurd member List.not_mem_nil
  intro qs ps best h
  induction ps generalizing qs best with
  | nil => simpa using h
  | cons p ps ih => simpa using ih (qs ++ [p]) _ (meetsAll_nearer valid climbs h p)

theorem up_first (known : start < g.size) (v : Nat) :
    (first g.size start).up v = if v = start then some start else none := by
  have unset : up (Array.replicate g.size none) v = none :=
    Adjacency.join_getElem?_replicate g.size v
  rw [first, up_relink (by rwa [Array.size_replicate]), unset]

theorem valid_first (known : start < g.size) : n.Valid n.count (first g.size start) := by
  have only {v p : Nat} (link : (first g.size start).up v = some p) : v = start ∧ p = start := by
    rw [up_first known] at link
    split at link
    · rename_i first
      exact ⟨first, (Option.some.inj link).symm⟩
    · cases link
  have root : (first g.size start).up start = some start := by rw [up_first known, if_pos rfl]
  refine ⟨?_, root, ?_, ?_, ?_, ?_, ?_, ?_⟩
  · rw [first, relink, Array.size_setIfInBounds, Array.size_replicate]
  · exact fun v p link other => absurd (only link).1 other
  · intro v isSet
    obtain ⟨p, link⟩ := Option.isSome_iff_exists.1 isSet
    obtain rfl := (only link).1
    exact start_known
  · intro v p link
    rw [(only link).2, IsSet, root]
    rfl
  · intro v _ above
    have bound := post_lt (n := n) v
    omega
  · exact fun v i link other => absurd (only link).1 other
  · exact fun v i x link other => absurd (only link).1 other

namespace Valid

theorem skip (valid : n.Valid (s + 1) l) (here : n.number? start = some s) : n.Valid s l := by
  refine { valid with done := fun v known le => ?_, follows := fun v i link other => ?_ }
  · by_cases first : v = start
    · exact first ▸ valid.set_start
    · exact valid.done v known (succ_le_post here known first le)
  · obtain ⟨p, edge, isSet, less, leads⟩ := valid.follows v i link other
    refine ⟨p, edge, isSet, less, fun when => leads (when.imp (fun le => ?_) fun lt => by omega)⟩
    exact succ_le_post here (valid.numbered v (by rw [IsSet, link]; rfl)) other le

theorem again (valid : n.Valid 0 l) : n.Valid n.count l := by
  refine { valid with done := fun v _ above => ?_, follows := fun v i link other => ?_ }
  · have bound := post_lt (n := n) v
    omega
  · obtain ⟨p, edge, isSet, less, leads⟩ := valid.follows v i link other
    exact ⟨p, edge, isSet, less, fun _ => leads (.inl (Nat.zero_le _))⟩

theorem exists_done (valid : n.Valid (s + 1) l) (here : n.number? v = some s) (other : v ≠ start) :
    ∃ p ∈ g.prev v, l.IsSet p ∧ n.post v < n.post p := by
  obtain ⟨p, edge, known, less⟩ := exists_feeding (n := n) (by rw [here]; rfl) other
  refine ⟨p, edge, valid.done p known ?_, less⟩
  rw [post_of_number? here] at less
  exact less

theorem nearest_ne_none (valid : n.Valid (s + 1) l) (here : n.number? v = some s)
    (other : v ≠ start) (climbs : n.Climbs l) : n.nearest l climbs v ≠ none := by
  intro none
  have all := meetsAll_nearest valid climbs v
  rw [none] at all
  obtain ⟨p, edge, isSet, -⟩ := valid.exists_done here other
  exact all p edge isSet

section

variable (valid : n.Valid (s + 1) l) (here : n.number? v = some s)
include valid here

theorem up_relink (w : Nat) : (l.relink v m).up w = if w = v then some m else l.up w := by
  refine Links.up_relink ?_ w
  rw [valid.size]
  exact inside_of_number? here

theorem link_cases {w i : Nat} (link : (l.relink v m).up w = some i) :
    (w = v ∧ i = m) ∨ (w ≠ v ∧ l.up w = some i) := by
  rw [valid.up_relink here] at link
  split at link
  · rename_i same
    exact .inl ⟨same, (Option.some.inj link).symm⟩
  · rename_i ne
    exact .inr ⟨ne, link⟩

theorem isSet_relink (isSet : l.IsSet a) : (l.relink v m).IsSet a := by
  rw [IsSet, valid.up_relink here]
  split
  · rfl
  · exact isSet

theorem leads_relink (leads : l.Leads a x) :
    (l.relink v m).Leads a x ∨ l.Leads a v ∧ n.post v < n.post x := by
  induction leads with
  | here => exact .inl (.here _)
  | @up a p x link rest ih =>
    by_cases same : a = v
    · subst same
      rcases valid.eq_or_lt (.up link rest) with rfl | less
      · exact .inl (.here _)
      · exact .inr ⟨.here _, less⟩
    · have link' : (l.relink v m).up a = some p := by
        rw [valid.up_relink here, if_neg same, link]
      exact ih.imp (.up link') fun h => ⟨.up link h.1, h.2⟩

theorem leads_relink_of_le (leads : l.Leads a x) (le : n.post x ≤ n.post v) :
    (l.relink v m).Leads a x :=
  (valid.leads_relink here leads).resolve_right fun h => by omega

theorem leads_relink_of_lt (leads : l.Leads a x) (less : n.post v < n.post a) :
    (l.relink v m).Leads a x :=
  (valid.leads_relink here leads).resolve_right fun h => by
    have below := valid.post_le h.1
    omega

variable (other : v ≠ start) (meets : MeetsAll l (g.prev v) (some m))
include other meets

theorem post_lt_nearest : n.post v < n.post m := by
  obtain ⟨p, edge, isSet, less⟩ := valid.exists_done here other
  exact Nat.lt_of_lt_of_le less (valid.post_le (meets.2.1 p edge isSet))

theorem leads_of_relink (isSet : l.IsSet a) (leads : (l.relink v m).Leads a x) : l.Leads a x := by
  induction leads with
  | here => exact .here _
  | @up a q x link rest ih =>
    rcases valid.link_cases here link with ⟨rfl, rfl⟩ | ⟨-, link⟩
    · obtain ⟨i, before⟩ := Option.isSome_iff_exists.1 isSet
      have covered := valid.covers a i q before other meets.2.1
      exact .up before (covered.trans (ih meets.1))
    · exact .up link (ih (valid.lands a q link))

theorem follows_relink {w i : Nat} (link : (l.relink v m).up w = some i) (first : w ≠ start) :
    ∃ p ∈ g.prev w, (l.relink v m).IsSet p ∧ n.post w < n.post p ∧
      (s ≤ n.post w ∨ n.post i < s → (l.relink v m).Leads p i) := by
  have post := post_of_number? here
  rcases valid.link_cases here link with ⟨rfl, rfl⟩ | ⟨ne, link⟩
  · obtain ⟨p, edge, isSet, less⟩ := valid.exists_done here first
    exact ⟨p, edge, valid.isSet_relink here isSet, less, fun _ =>
      valid.leads_relink_of_lt here (meets.2.1 p edge isSet) less⟩
  · obtain ⟨p, edge, isSet, less, leads⟩ := valid.follows w i link first
    refine ⟨p, edge, valid.isSet_relink here isSet, less, ?_⟩
    rintro (le | lt)
    · have known := valid.numbered w (by rw [IsSet, link]; rfl)
      have above := succ_le_post here known ne le
      exact valid.leads_relink_of_lt here (leads (.inl above)) (by omega)
    · exact valid.leads_relink_of_le here (leads (.inr (by omega))) (by omega)

theorem covers_relink {w i : Nat} (link : (l.relink v m).up w = some i) (first : w ≠ start)
    (all : ∀ p ∈ g.prev w, (l.relink v m).IsSet p → (l.relink v m).Leads p x) :
    (l.relink v m).Leads i x := by
  have post := post_of_number? here
  have before : ∀ p ∈ g.prev w, l.IsSet p → l.Leads p x := fun p edge isSet =>
    valid.leads_of_relink here other meets isSet (all p edge (valid.isSet_relink here isSet))
  rcases valid.link_cases here link with ⟨rfl, rfl⟩ | ⟨-, link⟩
  · exact valid.leads_relink_of_lt here (meets.2.2 x before)
      (valid.post_lt_nearest here other meets)
  · rcases valid.leads_relink here (valid.covers w i x link first before) with kept | ⟨to_v, less⟩
    · exact kept
    -- The chain came by the node that is linked anew. So the link is one that a predecessor
    -- follows, and goes on from there as the chain of the predecessor does.
    · have low := valid.post_le to_v
      obtain ⟨p, edge, isSet, -, leads⟩ := valid.follows w i link first
      have p_to_v := valid.leads_relink_of_le (m := m) here
        ((leads (.inr (by omega))).trans to_v) (Nat.le_refl _)
      have p_to_x := all p edge (valid.isSet_relink here isSet)
      refine (valid.leads_relink_of_le here to_v (Nat.le_refl _)).trans ?_
      refine (p_to_v.either p_to_x).resolve_right fun back => ?_
      have isSet_x := valid.isSet_of_leads isSet (before p edge isSet)
      have above := valid.post_le (valid.leads_of_relink here other meets isSet_x back)
      omega

theorem relink : n.Valid s (l.relink v m) where
  size := by rw [Links.relink, Array.size_setIfInBounds, valid.size]
  root := by rw [valid.up_relink here, if_neg other.symm, valid.root]
  climbs := by
    intro w i link first
    rcases valid.link_cases here link with ⟨rfl, rfl⟩ | ⟨-, link⟩
    · exact valid.post_lt_nearest here other meets
    · exact valid.climbs w i link first
  numbered := by
    intro w isSet
    obtain ⟨i, link⟩ := Option.isSome_iff_exists.1 isSet
    rcases valid.link_cases here link with ⟨rfl, -⟩ | ⟨-, link⟩
    · rw [here]
      rfl
    · exact valid.numbered w (by rw [IsSet, link]; rfl)
  lands := by
    intro w i link
    rcases valid.link_cases here link with ⟨-, rfl⟩ | ⟨-, link⟩
    · exact valid.isSet_relink here meets.1
    · exact valid.isSet_relink here (valid.lands w i link)
  done := by
    intro w known le
    by_cases same : w = v
    · rw [IsSet, valid.up_relink here, if_pos same]
      rfl
    · exact valid.isSet_relink here (valid.done w known (succ_le_post here known same le))
  follows := fun _ _ link first => valid.follows_relink here other meets link first
  covers := fun _ _ _ link first all => valid.covers_relink here other meets link first all

end

end Valid

end Numbering

end ClientScript
