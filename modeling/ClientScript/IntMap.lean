/-!
Finite maps with 32-bit integer keys, as association lists in ascending order of key. The order
is part of the type, so keys are distinct and the listing of a map is canonical.
-/
namespace ClientScript

structure IntMap (α : Type) where
  entries : List (Int32 × α)
  ascending : entries.Pairwise fun a b => a.1 < b.1 := by simp
  deriving DecidableEq

namespace IntMap

variable {α β : Type}

def empty : IntMap α := ⟨[], List.Pairwise.nil⟩

def find (k : Int32) : List (Int32 × α) → Option α
  | [] => none
  | (k', a) :: rest => if k = k' then some a else find k rest

def get? (m : IntMap α) (k : Int32) : Option α := find k m.entries

def keys (m : IntMap α) : List Int32 := m.entries.map Prod.fst

def values (m : IntMap α) : List α := m.entries.map Prod.snd

def size (m : IntMap α) : Nat := m.entries.length

def place (k : Int32) (a : α) : List (Int32 × α) → List (Int32 × α)
  | [] => [(k, a)]
  | (k', a') :: rest =>
    if k < k' then (k, a) :: (k', a') :: rest
    else if k = k' then (k, a) :: rest
    else (k', a') :: place k a rest

theorem mem_place {k : Int32} {a : α} {es : List (Int32 × α)} {e : Int32 × α}
    (h : e ∈ place k a es) : e = (k, a) ∨ e ∈ es := by
  induction es with
  | nil => simp [place] at h; exact .inl h
  | cons e' rest ih =>
    simp only [place] at h
    split at h
    · simpa using h
    · split at h <;> simp only [List.mem_cons] at h ⊢
      · rcases h with h | h
        · exact .inl h
        · exact .inr (.inr h)
      · rcases h with h | h
        · exact .inr (.inl h)
        · exact (ih h).imp_right .inr

theorem place_ascending (k : Int32) (a : α) {es : List (Int32 × α)}
    (h : es.Pairwise fun a b => a.1 < b.1) :
    (place k a es).Pairwise fun a b => a.1 < b.1 := by
  induction es with
  | nil => simp [place]
  | cons e rest ih =>
    obtain ⟨k', a'⟩ := e
    have ⟨first, tail⟩ := List.pairwise_cons.1 h
    simp only [place]
    split
    · rename_i lt
      refine List.pairwise_cons.2 ⟨?_, h⟩
      intro b hb
      rcases List.mem_cons.1 hb with rfl | hb
      · exact lt
      · exact Int32.lt_trans lt (first b hb)
    · split
      · rename_i eq
        subst eq
        exact List.pairwise_cons.2 ⟨first, tail⟩
      · rename_i ge ne
        refine List.pairwise_cons.2 ⟨?_, ih tail⟩
        intro b hb
        rcases mem_place hb with rfl | hb
        · exact Int32.lt_of_le_of_ne (Int32.not_lt.1 ge) (fun e => ne e.symm)
        · exact first b hb

def insert (m : IntMap α) (k : Int32) (a : α) : IntMap α :=
  ⟨place k a m.entries, place_ascending k a m.ascending⟩

/-- The map of a list of pairs; of equal keys the last counts. -/
def ofList (pairs : List (Int32 × α)) : IntMap α :=
  pairs.foldl (fun m p => m.insert p.1 p.2) empty

def sort (ns : List Int32) : List Int32 := (ofList (ns.map (·, ()))).keys

def map (f : α → β) (m : IntMap α) : IntMap β :=
  ⟨m.entries.map fun e => (e.1, f e.2), by simpa only [List.pairwise_map] using m.ascending⟩

def filterMap (f : α → Option β) (m : IntMap α) : IntMap β :=
  ⟨m.entries.filterMap fun e => (f e.2).map (e.1, ·), by
    refine List.pairwise_filterMap.2 (m.ascending.imp ?_)
    intro a b lt a' ha b' hb
    obtain ⟨x, _, rfl⟩ := Option.map_eq_some_iff.1 ha
    obtain ⟨y, _, rfl⟩ := Option.map_eq_some_iff.1 hb
    exact lt⟩

theorem get?_empty (k : Int32) : (empty : IntMap α).get? k = none := rfl

theorem find_place (k k' : Int32) (a : α) (es : List (Int32 × α)) :
    find k' (place k a es) = if k' = k then some a else find k' es := by
  induction es with
  | nil => simp [place, find]
  | cons e rest ih =>
    obtain ⟨k₁, a₁⟩ := e
    simp only [place]
    split
    · simp [find]
    · split
      · rename_i eq
        subst eq
        by_cases h : k' = k <;> simp [find, h]
      · rename_i ne
        by_cases h : k' = k₁
        · subst h
          have : k' ≠ k := fun e => ne e.symm
          simp [find, this]
        · simp [find, h, ih]

theorem get?_insert (m : IntMap α) (k k' : Int32) (a : α) :
    (m.insert k a).get? k' = if k' = k then some a else m.get? k' :=
  find_place k k' a m.entries

theorem isSome_find {k : Int32} {es : List (Int32 × α)} :
    (find k es).isSome ↔ k ∈ es.map Prod.fst := by
  induction es with
  | nil => simp [find]
  | cons e rest ih =>
    simp only [List.map_cons, List.mem_cons, find]
    split
    · rename_i same
      simp [same]
    · rename_i other
      rw [ih]
      simp [other]

theorem mem_keys_iff {m : IntMap α} {k : Int32} : k ∈ m.keys ↔ (m.get? k).isSome :=
  isSome_find.symm

theorem keys_ascending (m : IntMap α) : m.keys.Pairwise (· < ·) :=
  List.pairwise_map.2 m.ascending

theorem length_keys (m : IntMap α) : m.keys.length = m.size := by
  simp [keys, size]

theorem get?_insert_self (m : IntMap α) (k : Int32) (a : α) :
    (m.insert k a).get? k = some a := by
  simp [get?_insert]

theorem get?_ofList (pairs : List (Int32 × α)) (k : Int32) :
    (ofList pairs).get? k = find k pairs.reverse := by
  rw [ofList, ← List.foldr_reverse]
  induction pairs.reverse with
  | nil => rfl
  | cons p rest ih => rw [List.foldr_cons, get?_insert, ih, find]

theorem mem_sort {n : Int32} {ns : List Int32} : n ∈ sort ns ↔ n ∈ ns := by
  rw [sort, mem_keys_iff, get?_ofList, isSome_find]
  simp

theorem sort_ascending (ns : List Int32) : (sort ns).Pairwise (· < ·) := keys_ascending _

end IntMap

end ClientScript
