import ClientScript.Typing.Narrowing
import Mathlib.Data.Set.Insert
import Mathlib.Data.List.Nodup
import Mathlib.Tactic.ByContra

/-!
Narrowing, read off the set of all types that a class was pinned to. Whether narrowing succeeds
and what it leaves depend on that set alone, so types may arrive in any order and in any grouping.
-/
namespace ClientScript

theorem ValueType.union_isSome_iff (a b : ValueType) : (union a b).isSome ↔ a = b ∨
    (a = .namedobj ∧ b = .obj) ∨ (a = .obj ∧ b = .namedobj) ∨
    (a = .fontmetrics ∧ b = .graphic) ∨ (a = .graphic ∧ b = .fontmetrics) := by
  cases a <;> cases b <;> decide

namespace Typing

def Acceptable (S : Set ValueType) : Prop :=
  ∀ t ∈ S, ∀ u ∈ S, t ≠ .int → u ≠ .int → (ValueType.union t u).isSome

theorem Acceptable.mono {S T : Set ValueType} (h : Acceptable T) (le : S ⊆ T) : Acceptable S :=
  fun t inS u inS' => h t (le inS) u (le inS')

/-- What a class can hold: nothing, one type, or a compatible pair in order. -/
inductive Tidy : List ValueType → Prop
  | none : Tidy []
  | one (t : ValueType) : Tidy [t]
  | objects : Tidy [.namedobj, .obj]
  | fonts : Tidy [.fontmetrics, .graphic]

/-- The set without plain integers if it has other types, written as a tidy list. -/
structure NormalForm (S : Set ValueType) (types : List ValueType) : Prop where
  tidy : Tidy types
  mem_iff : ∀ t, t ∈ types ↔ t ∈ S ∧ (t = .int → ∀ u ∈ S, u = .int)

theorem Tidy.nodup {types : List ValueType} (h : Tidy types) : types.Nodup := by
  cases h <;> simp

theorem Tidy.eq_of_mem_iff {xs ys : List ValueType} (hx : Tidy xs) (hy : Tidy ys)
    (same : ∀ t, t ∈ xs ↔ t ∈ ys) : xs = ys := by
  have perm : xs.Perm ys := (List.perm_ext_iff_of_nodup hx.nodup hy.nodup).2 same
  cases hx with
  | none => exact (List.nil_perm.1 perm).symm
  | one t => exact (List.singleton_perm.1 perm).symm ▸ rfl
  | objects | fonts => cases hy with
    | none => simp at perm
    | one t => simp at perm
    | objects | fonts => first | rfl | (exact absurd perm (by decide))

section

variable {S T : Set ValueType} {xs ys zs : List ValueType}

theorem NormalForm.unique (left : NormalForm S xs) (right : NormalForm S ys) : xs = ys :=
  left.tidy.eq_of_mem_iff right.tidy fun t => (left.mem_iff t).trans (right.mem_iff t).symm

theorem NormalForm.mem_of_mem (h : NormalForm S xs) {t : ValueType} (member : t ∈ xs) : t ∈ S :=
  ((h.mem_iff t).1 member).1

theorem NormalForm.mem_of_ne (h : NormalForm S xs) {t : ValueType} (member : t ∈ S)
    (ne : t ≠ .int) : t ∈ xs :=
  (h.mem_iff t).2 ⟨member, fun eq => absurd eq ne⟩

theorem NormalForm.eq_empty (h : NormalForm S []) : S = ∅ := by
  refine Set.eq_empty_of_forall_notMem fun t member => ?_
  have weak : ∀ u ∈ S, u = .int := by
    intro u inS
    by_contra ne
    exact List.not_mem_nil (h.mem_of_ne inS ne)
  exact List.not_mem_nil ((h.mem_iff t).2 ⟨member, fun _ => weak⟩)

theorem NormalForm.acceptable (h : NormalForm S xs) : Acceptable S := by
  intro t inS u inS' tNe uNe
  have tIn := h.mem_of_ne inS tNe
  have uIn := h.mem_of_ne inS' uNe
  cases h.tidy with
  | none => simp at tIn
  | one a =>
    rw [List.mem_singleton.1 tIn, List.mem_singleton.1 uIn]
    simp [ValueType.union]
  | objects | fonts =>
    simp only [List.mem_cons, List.not_mem_nil, or_false] at tIn uIn
    rcases tIn with rfl | rfl <;> rcases uIn with rfl | rfl <;> decide

theorem normalForm_nil : NormalForm ∅ [] := ⟨.none, by simp⟩

theorem normalForm_one (t : ValueType) : NormalForm {t} [t] := by
  constructor
  · exact .one t
  · intro u
    constructor
    · intro member
      obtain rfl : u = t := List.mem_singleton.1 member
      exact ⟨rfl, fun eq v same => (Set.mem_singleton_iff.1 same).trans eq⟩
    · rintro ⟨member, -⟩
      exact List.mem_singleton.2 (Set.mem_singleton_iff.1 member)

theorem NormalForm.union (left : NormalForm S xs) (right : NormalForm T ys)
    (both : NormalForm {t | t ∈ xs ∨ t ∈ ys} zs) : NormalForm (S ∪ T) zs := by
  have shown : ∀ t ∈ S ∪ T, t ≠ .int → t ∈ xs ∨ t ∈ ys := fun t member ne =>
    member.imp (left.mem_of_ne · ne) (right.mem_of_ne · ne)
  have held : ∀ t, t ∈ xs ∨ t ∈ ys → t ∈ S ∪ T := fun t member =>
    member.imp left.mem_of_mem right.mem_of_mem
  constructor
  · exact both.tidy
  · intro t
    rw [both.mem_iff]
    constructor
    · rintro ⟨member, weak⟩
      refine ⟨held t member, fun isInt u other => ?_⟩
      by_contra ne
      exact ne (weak isInt u (shown u other ne))
    · rintro ⟨member, weak⟩
      refine ⟨?_, fun isInt u other => weak isInt u (held u other)⟩
      by_cases isInt : t = .int
      · have all := weak isInt
        exact member.imp (fun inS => (left.mem_iff t).2 ⟨inS, fun _ u hu => all u (.inl hu)⟩)
          (fun inT => (right.mem_iff t).2 ⟨inT, fun _ u hu => all u (.inr hu)⟩)
      · exact shown t member isInt

end

section

variable {types : List ValueType}

theorem mem_dropWeak (nodup : types.Nodup) (t : ValueType) :
    t ∈ dropWeak types ↔ t ∈ types ∧ (t = .int → ∀ u ∈ types, u = .int) := by
  unfold dropWeak
  split
  · rename_i long
    have other : ¬ ∀ u ∈ types, u = .int := by
      intro weak
      have inside : types ⊆ [.int] := fun u hu => List.mem_singleton.2 (weak u hu)
      have short := nodup.length_le_of_subset inside
      simp only [List.length_singleton] at short
      omega
    simp only [List.mem_filter, decide_eq_true_eq]
    exact and_congr_right fun _ => ⟨fun ne eq => absurd eq ne, fun weak eq => other (weak eq)⟩
  · rename_i short
    constructor
    · intro member
      refine ⟨member, fun isInt u other => ?_⟩
      have one : types = [t] := by
        match types, short, member with
        | [a], _, member => rw [List.mem_singleton.1 member]
        | _ :: _ :: _, short, _ => simp at short
      rw [one] at other
      exact (List.mem_singleton.1 other).trans isInt
    · exact And.left

theorem nodup_dropWeak (nodup : types.Nodup) : (dropWeak types).Nodup := by
  unfold dropWeak
  split
  · exact nodup.filter _
  · exact nodup

theorem ne_int_of_dropWeak (nodup : types.Nodup) {t u : ValueType} (ht : t ∈ dropWeak types)
    (hu : u ∈ dropWeak types) (ne : t ≠ u) : t ≠ .int := by
  intro isInt
  have all := ((mem_dropWeak nodup t).1 ht).2 isInt
  exact ne (isInt.trans (all u ((mem_dropWeak nodup u).1 hu).1).symm)

theorem narrow_eq_some {result : List ValueType} (nodup : types.Nodup)
    (h : narrow types = some result) : NormalForm {t | t ∈ types} result := by
  have kept := mem_dropWeak nodup
  unfold narrow at h
  split at h
  · rename_i none
    rw [none] at kept
    obtain rfl := Option.some.inj h
    exact ⟨.none, kept⟩
  · rename_i a one
    rw [one] at kept
    obtain rfl := Option.some.inj h
    exact ⟨.one a, kept⟩
  · rename_i a b two
    rw [two] at kept
    have ne : a ≠ b := by
      have distinct := nodup_dropWeak nodup
      rw [two] at distinct
      simpa using distinct
    have members : ∀ t, t ∈ (if a.rank ≤ b.rank then [a, b] else [b, a]) ↔ t ∈ [a, b] := by
      intro t
      split <;> simp [or_comm]
    obtain ⟨fits, sorted⟩ := Option.ite_none_right_eq_some.1 h
    obtain rfl := Option.some.inj sorted
    constructor
    · rcases (ValueType.union_isSome_iff a b).1 fits with
        eq | ⟨rfl, rfl⟩ | ⟨rfl, rfl⟩ | ⟨rfl, rfl⟩ | ⟨rfl, rfl⟩
      · exact absurd eq ne
      · exact .objects
      · exact .objects
      · exact .fonts
      · exact .fonts
    · intro t
      rw [members]
      exact kept t
  · simp at h

theorem not_three {a b c : ValueType} (ab : a ≠ b) (ac : a ≠ c) (bc : b ≠ c)
    (hab : (ValueType.union a b).isSome) (hac : (ValueType.union a c).isSome) :
    ¬ (ValueType.union b c).isSome := by
  intro hbc
  rw [ValueType.union_isSome_iff] at hab hac hbc
  grind

theorem narrow_isSome (nodup : types.Nodup) (h : Acceptable {t | t ∈ types}) :
    (narrow types).isSome := by
  have distinct := nodup_dropWeak nodup
  have fits : ∀ t ∈ dropWeak types, ∀ u ∈ dropWeak types, t ≠ u →
      (ValueType.union t u).isSome := by
    intro t ht u hu ne
    exact h t ((mem_dropWeak nodup t).1 ht).1 u ((mem_dropWeak nodup u).1 hu).1
      (ne_int_of_dropWeak nodup ht hu ne) (ne_int_of_dropWeak nodup hu ht ne.symm)
  unfold narrow
  split
  · rfl
  · rfl
  · rename_i a b two
    rw [two] at fits distinct
    rw [if_pos (fits a (by simp) b (by simp) (by simpa using distinct))]
    rfl
  · rename_i many notOne notTwo
    match kept : dropWeak types with
    | [] => exact absurd kept many
    | [a] => exact absurd kept (notOne a)
    | [a, b] => exact absurd kept (notTwo a b)
    | a :: b :: c :: rest =>
      rw [kept] at fits distinct
      simp only [List.nodup_cons, List.mem_cons, not_or] at distinct
      obtain ⟨⟨ab, ac, -⟩, ⟨bc, -⟩, -⟩ := distinct
      exact absurd (fits b (by simp) c (by simp) bc)
        (not_three ab ac bc (fits a (by simp) b (by simp) ab) (fits a (by simp) c (by simp) ac))

end

theorem mem_gather (xs ys : List ValueType) (t : ValueType) :
    t ∈ gather xs ys ↔ t ∈ xs ∨ t ∈ ys := by
  unfold gather
  induction ys generalizing xs with
  | nil => simp
  | cons y ys ih =>
    rw [List.foldl_cons, ih]
    split
    · rename_i known
      rw [List.mem_cons]
      constructor
      · exact Or.imp_right .inr
      · rintro (old | rfl | new)
        · exact .inl old
        · exact .inl known
        · exact .inr new
    · rw [List.mem_append, List.mem_singleton, List.mem_cons, or_assoc]

theorem nodup_gather {xs : List ValueType} (ys : List ValueType) (nodup : xs.Nodup) :
    (gather xs ys).Nodup := by
  unfold gather
  induction ys generalizing xs with
  | nil => exact nodup
  | cons y ys ih =>
    rw [List.foldl_cons]
    apply ih
    split
    · exact nodup
    · rename_i new
      exact List.nodup_append.2 ⟨nodup, by simp, fun a ha b hb => by
        rintro rfl
        exact new (List.mem_singleton.1 hb ▸ ha)⟩

variable {S T : Set ValueType} {xs ys : List ValueType}

theorem narrow_gather (left : NormalForm S xs) (right : NormalForm T ys) :
    (∃ zs, narrow (gather xs ys) = some zs ∧ NormalForm (S ∪ T) zs) ∨
      (narrow (gather xs ys) = none ∧ ¬ Acceptable (S ∪ T)) := by
  have nodup := nodup_gather ys left.tidy.nodup
  have members : {t | t ∈ gather xs ys} = {t | t ∈ xs ∨ t ∈ ys} := by
    ext t
    exact mem_gather xs ys t
  cases result : narrow (gather xs ys) with
  | some zs =>
    have form := narrow_eq_some nodup result
    rw [members] at form
    exact .inl ⟨zs, rfl, left.union right form⟩
  | none =>
    refine .inr ⟨rfl, fun fits => ?_⟩
    have both : {t | t ∈ gather xs ys} ⊆ S ∪ T := by
      rw [members]
      exact fun t member => member.imp left.mem_of_mem right.mem_of_mem
    have some := narrow_isSome nodup (fits.mono both)
    simp [result] at some

theorem gather_one {t : ValueType} (new : t ∉ xs) : gather xs [t] = xs ++ [t] := by
  simp [gather, new]

end Typing

end ClientScript
