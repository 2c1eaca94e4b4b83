import ClientScript.ValueType

/-!
A forest of cells with parent links; the cells of one tree are one class. Only a root carries the
types of its class. Along a link the rank grows, which is why the search for a root ends. Three
operations change links: `link` hangs one root under another, `flatten` hangs every cell on the way
to a root directly under it, and `pin` changes the types of a cell alone.
-/
namespace ClientScript.Typings

structure Cell where
  parent : Nat
  rank : Nat
  stack : StackType
  types : List ValueType

def parentOf (cells : Array Cell) (i : Nat) : Nat := (cells[i]?.map Cell.parent).getD i

def rankOf (cells : Array Cell) (i : Nat) : Nat := (cells[i]?.map Cell.rank).getD 0

def Climbs (cells : Array Cell) : Prop :=
  ∀ i, parentOf cells i ≠ i → rankOf cells i < rankOf cells (parentOf cells i)

def totalRank (cells : Array Cell) : Nat := (cells.toList.map Cell.rank).foldr Nat.add 0

theorem le_sum {n : Nat} {ns : List Nat} (h : n ∈ ns) : n ≤ ns.foldr Nat.add 0 := by
  induction ns with
  | nil => simp at h
  | cons m ms ih =>
    rw [List.foldr_cons]
    rcases List.mem_cons.1 h with rfl | h
    · exact Nat.le_add_right ..
    · exact Nat.le_trans (ih h) (Nat.le_add_left ..)

theorem rankOf_le_totalRank (cells : Array Cell) (i : Nat) : rankOf cells i ≤ totalRank cells := by
  unfold rankOf
  cases h : cells[i]? with
  | none => simp
  | some c =>
    refine le_sum (List.mem_map.2 ⟨c, ?_, rfl⟩)
    exact Array.mem_toList_iff.2 (Array.mem_of_getElem? h)

/-- The root of the tree a cell is in. A number without a cell is its own root. -/
def rootOf (cells : Array Cell) (climbs : Climbs cells) (i : Nat) : Nat :=
  if _h : parentOf cells i = i then i else rootOf cells climbs (parentOf cells i)
termination_by totalRank cells - rankOf cells i
decreasing_by
  have up := climbs i _h
  have bound := rankOf_le_totalRank cells (parentOf cells i)
  omega

def wayUp (cells : Array Cell) (climbs : Climbs cells) (i : Nat) : List Nat :=
  if _h : parentOf cells i = i then [] else i :: wayUp cells climbs (parentOf cells i)
termination_by totalRank cells - rankOf cells i
decreasing_by
  have up := climbs i _h
  have bound := rankOf_le_totalRank cells (parentOf cells i)
  omega

section

variable {cells : Array Cell}

@[simp]
theorem parentOf_rootOf (climbs : Climbs cells) (i : Nat) :
    parentOf cells (rootOf cells climbs i) = rootOf cells climbs i := by
  fun_induction rootOf cells climbs i with
  | case1 i h => exact h
  | case2 i _ ih => exact ih

theorem rootOf_eq_self {climbs : Climbs cells} {i : Nat} (h : parentOf cells i = i) :
    rootOf cells climbs i = i := by
  unfold rootOf
  rw [dif_pos h]

@[simp]
theorem rootOf_parentOf (climbs : Climbs cells) (i : Nat) :
    rootOf cells climbs (parentOf cells i) = rootOf cells climbs i := by
  by_cases top : parentOf cells i = i
  · rw [top]
  · have step : rootOf cells climbs i = rootOf cells climbs (parentOf cells i) := by
      rw [rootOf, dif_neg top]
    exact step.symm

theorem rootOf_eq {climbs : Climbs cells} {f : Nat → Nat}
    (keeps : ∀ i, f (parentOf cells i) = f i) (fixes : ∀ i, parentOf cells i = i → f i = i)
    (i : Nat) : rootOf cells climbs i = f i := by
  fun_induction rootOf cells climbs i with
  | case1 i h => exact (fixes i h).symm
  | case2 i _ ih => rw [ih, keeps i]

theorem rootOf_of_mem_wayUp {climbs : Climbs cells} {i j : Nat} (h : j ∈ wayUp cells climbs i) :
    rootOf cells climbs j = rootOf cells climbs i := by
  fun_induction wayUp cells climbs i with
  | case1 => simp at h
  | case2 i _ ih =>
    rcases List.mem_cons.1 h with rfl | later
    · rfl
    · rw [ih later, rootOf_parentOf]

theorem rankOf_le_rootOf (climbs : Climbs cells) (i : Nat) :
    rankOf cells i ≤ rankOf cells (rootOf cells climbs i) := by
  fun_induction rootOf cells climbs i with
  | case1 => exact Nat.le_refl _
  | case2 i moved ih => exact Nat.le_trans (Nat.le_of_lt (climbs i moved)) ih

theorem rankOf_lt_of_mem_wayUp {climbs : Climbs cells} {i j : Nat}
    (h : j ∈ wayUp cells climbs i) : rankOf cells j < rankOf cells (rootOf cells climbs i) := by
  fun_induction wayUp cells climbs i with
  | case1 => simp at h
  | case2 i moved ih =>
    rw [← rootOf_parentOf]
    rcases List.mem_cons.1 h with rfl | later
    · exact Nat.lt_of_lt_of_le (climbs j moved) (rankOf_le_rootOf climbs _)
    · exact ih later

end

section

variable {cells : Array Cell}

def pushed (cells : Array Cell) (stack : StackType) (types : List ValueType) : Array Cell :=
  cells.push ⟨cells.size, 0, stack, types⟩

theorem parentOf_pushed (stack : StackType) (types : List ValueType) (i : Nat) :
    parentOf (pushed cells stack types) i = parentOf cells i := by
  simp only [parentOf, pushed, Array.getElem?_push]
  split
  · rename_i last
    subst last
    simp
  · rfl

theorem rankOf_pushed (stack : StackType) (types : List ValueType) (i : Nat) :
    rankOf (pushed cells stack types) i = rankOf cells i := by
  simp only [rankOf, pushed, Array.getElem?_push]
  split
  · rename_i last
    subst last
    simp
  · rfl

theorem climbs_pushed (climbs : Climbs cells) (stack : StackType) (types : List ValueType) :
    Climbs (pushed cells stack types) := by
  intro i moved
  simp only [parentOf_pushed, rankOf_pushed] at moved ⊢
  exact climbs i moved

end

section

variable {cells : Array Cell}

def pin (cells : Array Cell) (root : Nat) (types : List ValueType) : Array Cell :=
  cells.modify root fun c => { c with types := types }

theorem parentOf_pin (root : Nat) (types : List ValueType) (i : Nat) :
    parentOf (pin cells root types) i = parentOf cells i := by
  simp only [parentOf, pin, Array.getElem?_modify]
  split <;> cases cells[i]? <;> simp

theorem rankOf_pin (root : Nat) (types : List ValueType) (i : Nat) :
    rankOf (pin cells root types) i = rankOf cells i := by
  simp only [rankOf, pin, Array.getElem?_modify]
  split <;> cases cells[i]? <;> simp

theorem climbs_pin (climbs : Climbs cells) (root : Nat) (types : List ValueType) :
    Climbs (pin cells root types) := by
  intro i moved
  simp only [parentOf_pin, rankOf_pin] at moved ⊢
  exact climbs i moved

end

section

variable {cells : Array Cell}

def hang (root : Nat) (cells : Array Cell) (i : Nat) : Array Cell :=
  cells.modify i fun c => { c with parent := root }

def flatten (cells : Array Cell) (climbs : Climbs cells) (i : Nat) : Array Cell :=
  (wayUp cells climbs i).foldl (hang (rootOf cells climbs i)) cells

theorem getElem?_foldl_hang (root : Nat) (way : List Nat) (cells : Array Cell) (j : Nat) :
    (way.foldl (hang root) cells)[j]? =
      cells[j]?.map fun c => if j ∈ way then { c with parent := root } else c := by
  induction way generalizing cells with
  | nil => simp
  | cons i way ih =>
    rw [List.foldl_cons, ih, hang, Array.getElem?_modify]
    by_cases here : i = j
    · subst here
      cases cells[i]? <;> simp
    · simp [here, Ne.symm here]

theorem getElem?_flatten (climbs : Climbs cells) (i j : Nat) :
    (flatten cells climbs i)[j]? = cells[j]?.map fun c =>
      if j ∈ wayUp cells climbs i then { c with parent := rootOf cells climbs i } else c :=
  getElem?_foldl_hang ..

theorem size_flatten (climbs : Climbs cells) (i : Nat) :
    (flatten cells climbs i).size = cells.size := by
  unfold flatten
  generalize rootOf cells climbs i = root
  generalize wayUp cells climbs i = way
  clear climbs
  induction way generalizing cells with
  | nil => rfl
  | cons j way ih => rw [List.foldl_cons, ih, hang, Array.size_modify]

theorem lt_size_of_mem_wayUp {climbs : Climbs cells} {i j : Nat}
    (h : j ∈ wayUp cells climbs i) : j < cells.size := by
  have above := rankOf_lt_of_mem_wayUp h
  refine Nat.lt_of_not_le fun outside => ?_
  have none : cells[j]? = none := Array.getElem?_eq_none outside
  have own : rootOf cells climbs j = j := rootOf_eq_self (by simp [parentOf, none])
  rw [← rootOf_of_mem_wayUp h, own] at above
  exact Nat.lt_irrefl _ above

theorem parentOf_flatten (climbs : Climbs cells) (i j : Nat) :
    parentOf (flatten cells climbs i) j =
      if j ∈ wayUp cells climbs i then rootOf cells climbs i else parentOf cells j := by
  rw [parentOf, getElem?_flatten]
  by_cases onWay : j ∈ wayUp cells climbs i
  · have inside := lt_size_of_mem_wayUp onWay
    simp [onWay, Array.getElem?_eq_getElem inside]
  · simp only [onWay, if_false, Option.map_id']
    rfl

theorem rankOf_flatten (climbs : Climbs cells) (i j : Nat) :
    rankOf (flatten cells climbs i) j = rankOf cells j := by
  rw [rankOf, rankOf, getElem?_flatten, Option.map_map]
  congr 2
  funext c
  simp only [Function.comp]
  split <;> rfl

theorem climbs_flatten (climbs : Climbs cells) (i : Nat) : Climbs (flatten cells climbs i) := by
  intro j moved
  rw [parentOf_flatten] at moved ⊢
  rw [rankOf_flatten, rankOf_flatten]
  split at moved
  · rename_i onWay
    rw [if_pos onWay]
    exact rankOf_lt_of_mem_wayUp onWay
  · rename_i offWay
    rw [if_neg offWay]
    exact climbs j moved

end

section

variable {cells : Array Cell} {top child : Nat}

def joinedRank (cells : Array Cell) (top child : Nat) : Nat :=
  if rankOf cells top = rankOf cells child then rankOf cells top + 1 else rankOf cells top

def link (cells : Array Cell) (top child : Nat) (types : List ValueType) : Array Cell :=
  (cells.modify child fun c => { c with parent := top, types := [] }).modify top
    fun c => { c with rank := joinedRank cells top child, types := types }

theorem getElem?_link (types : List ValueType) (ne : top ≠ child) (i : Nat) :
    (link cells top child types)[i]? = cells[i]?.map fun c =>
      if i = top then { c with rank := joinedRank cells top child, types := types }
      else if i = child then { c with parent := top, types := [] }
      else c := by
  rw [link, Array.getElem?_modify, Array.getElem?_modify]
  by_cases atTop : top = i
  · subst atTop
    simp [Ne.symm ne]
  · by_cases atChild : child = i
    · subst atChild
      simp [atTop, Ne.symm ne]
    · simp [atTop, atChild, Ne.symm atTop, Ne.symm atChild]

theorem parentOf_link (types : List ValueType)
    (ne : top ≠ child) (i : Nat) : parentOf (link cells top child types) i =
      if i = child ∧ i < cells.size then top else parentOf cells i := by
  rw [parentOf, getElem?_link types ne, parentOf]
  by_cases inside : i < cells.size
  · rw [Array.getElem?_eq_getElem inside]
    by_cases atTop : i = top
    · simp [atTop, ne]
    · by_cases atChild : i = child
      · rw [if_pos ⟨atChild, inside⟩]
        simp [atTop, ← atChild]
      · simp [atTop, atChild]
  · rw [Array.getElem?_eq_none (Nat.le_of_not_lt inside)]
    simp [inside]

theorem rankOf_link (types : List ValueType)
    (ne : top ≠ child) (i : Nat) : rankOf (link cells top child types) i =
      if i = top ∧ i < cells.size then joinedRank cells top child else rankOf cells i := by
  rw [rankOf, getElem?_link types ne, rankOf]
  by_cases inside : i < cells.size
  · rw [Array.getElem?_eq_getElem inside]
    by_cases atTop : i = top
    · rw [if_pos ⟨atTop, inside⟩]
      simp [atTop]
    · rw [if_neg fun both => atTop both.1]
      by_cases atChild : i = child
      · simp [atTop, ← atChild]
      · simp [atTop, atChild]
  · rw [Array.getElem?_eq_none (Nat.le_of_not_lt inside)]
    simp [inside]

theorem climbs_link (climbs : Climbs cells)
    (types : List ValueType) (ne : top ≠ child) (inside : top < cells.size)
    (root : parentOf cells top = top) (le : rankOf cells child ≤ rankOf cells top) :
    Climbs (link cells top child types) := by
  have joined : rankOf cells top ≤ joinedRank cells top child ∧
      rankOf cells child < joinedRank cells top child := by
    unfold joinedRank
    split <;> omega
  intro i moved
  rw [parentOf_link types ne] at moved ⊢
  rw [rankOf_link types ne, rankOf_link types ne]
  by_cases here : i = child ∧ i < cells.size
  · rw [if_pos here] at moved ⊢
    simp only [here.1, Ne.symm ne, inside, false_and, and_self, if_true, if_false]
    exact joined.2
  · rw [if_neg here] at moved ⊢
    have up := climbs i moved
    have notTop : i ≠ top := fun e => by subst e; exact moved root
    simp only [notTop, false_and, if_false]
    split
    · rename_i at_top
      rw [at_top.1] at up
      omega
    · exact up

end

end ClientScript.Typings
