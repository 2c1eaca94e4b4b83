import ClientScript.Proofs.Flow.Control
import Mathlib.Data.Fintype.Pigeonhole
import Mathlib.Data.Nat.Find
import Mathlib.Dynamics.PeriodicPts.Lemmas

/-!
Jumps in a circle. Jumps that come to work are followed to the first block that does it. Jumps that
never do come into a circle; they are followed for as many blocks as there are in the graph, and
where in the circle that ends depends on the other blocks. Main statement: exactly in which graphs
the block that jumps are followed to is the one where they come to rest.
-/
namespace ClientScript

namespace FlowGraph

/-- Where jumps come to rest: the first block that does work or, if none does, the first block that
    comes again. -/
inductive Rests (g : FlowGraph) (n : Nat) : Nat → Prop where
  | works {k : Nat} (plain : g.Plain (g.hop^[k] n)) (first : ∀ i < k, ¬ g.Plain (g.hop^[i] n)) :
      Rests g n (g.hop^[k] n)
  | circles {k : Nat} (never : ∀ i, ¬ g.Plain (g.hop^[i] n))
      (again : ∃ j, k < j ∧ g.hop^[k] n = g.hop^[j] n)
      (first : ∀ i < k, ∀ j, i < j → g.hop^[i] n ≠ g.hop^[j] n) : Rests g n (g.hop^[k] n)

/-- The jumps from `n` never come to work: `lead` blocks lead into a circle of `length` blocks. -/
structure Circles (g : FlowGraph) (n lead length : Nat) : Prop where
  never : ∀ i, ¬ g.Plain (g.hop^[i] n)
  turns : 0 < length
  closes : g.hop^[lead] n = g.hop^[lead + length] n
  apart : ∀ i j, i < j → j < lead + length → g.hop^[i] n ≠ g.hop^[j] n

variable {g : FlowGraph} {n m lead length : Nat}

theorem isPeriodicPt_iterate_iff {k period : Nat} :
    Function.IsPeriodicPt g.hop period (g.hop^[k] n) ↔ g.hop^[period + k] n = g.hop^[k] n := by
  rw [Function.IsPeriodicPt, Function.IsFixedPt, ← Function.iterate_add_apply]

theorem exists_circles (never : ∀ i, ¬ g.Plain (g.hop^[i] n)) :
    ∃ lead length, g.Circles n lead length := by
  classical
  let block (i : Nat) : Fin g.size := ⟨g.hop^[i] n, inside_of_not_plain (never i)⟩
  -- There are finitely many blocks, so jumps that never come to work repeat one.
  have repeats : ∃ j, ∃ i < j, g.hop^[i] n = g.hop^[j] n := by
    obtain ⟨i, j, differ, same⟩ := Finite.exists_ne_map_eq_of_infinite block
    have same : g.hop^[i] n = g.hop^[j] n := congrArg Fin.val same
    rcases Nat.lt_or_gt_of_ne differ with lt | gt
    · exact ⟨j, i, lt, same⟩
    · exact ⟨i, j, gt, same.symm⟩
  obtain ⟨j, ⟨i, before, same⟩, least⟩ := Nat.findX repeats
  refine ⟨i, j - i, never, Nat.sub_pos_of_lt before, ?_, fun a b lt inside equal => ?_⟩
  · rwa [Nat.add_sub_cancel' (Nat.le_of_lt before)]
  · exact least b (by omega) ⟨a, lt, equal⟩

namespace Circles

theorem fits (circles : g.Circles n lead length) : lead + length ≤ g.size := by
  have apart : Set.InjOn (fun i => g.hop^[i] n) (Finset.range (lead + length)) := by
    intro i hi j hj same
    have hi := Finset.mem_range.1 hi
    have hj := Finset.mem_range.1 hj
    rcases Nat.lt_trichotomy i j with lt | eq | gt
    · exact absurd same (circles.apart i j lt hj)
    · exact eq
    · exact absurd same.symm (circles.apart j i gt hi)
  have known : Set.MapsTo (fun i => g.hop^[i] n) (Finset.range (lead + length))
      (Finset.range g.size) := fun i _ =>
    Finset.mem_coe.2 (Finset.mem_range.2 (inside_of_not_plain (circles.never i)))
  simpa using Finset.card_le_card_of_injOn _ known apart

theorem isPeriodicPt (circles : g.Circles n lead length) :
    Function.IsPeriodicPt g.hop length (g.hop^[lead] n) := by
  rw [isPeriodicPt_iterate_iff, Nat.add_comm]
  exact circles.closes.symm

theorem minimalPeriod_eq (circles : g.Circles n lead length) :
    Function.minimalPeriod g.hop (g.hop^[lead] n) = length := by
  refine Nat.le_antisymm (circles.isPeriodicPt.minimalPeriod_le circles.turns) ?_
  by_contra short
  have turns := circles.isPeriodicPt.minimalPeriod_pos circles.turns
  have closes := Function.iterate_minimalPeriod (f := g.hop) (x := g.hop^[lead] n)
  rw [← Function.iterate_add_apply, Nat.add_comm] at closes
  exact circles.apart lead _ (by omega) (by omega) closes.symm

theorem iterate_eq_iff (circles : g.Circles n lead length) {k : Nat} (inside : lead ≤ k) :
    g.hop^[k] n = g.hop^[lead] n ↔ length ∣ k - lead := by
  rw [← circles.minimalPeriod_eq, ← Function.isPeriodicPt_iff_minimalPeriod_dvd,
    isPeriodicPt_iterate_iff, Nat.sub_add_cancel inside]

theorem not_again (circles : g.Circles n lead length) {i j : Nat} (leads : i < lead)
    (later : i < j) : g.hop^[i] n ≠ g.hop^[j] n := by
  intro same
  have again : Function.IsPeriodicPt g.hop (j - i) (g.hop^[i] n) := by
    rw [isPeriodicPt_iterate_iff, Nat.sub_add_cancel (Nat.le_of_lt later), same]
  -- A block that comes again does so with the period of the circle, which would close there.
  have closes : Function.IsPeriodicPt g.hop length (g.hop^[i] n) := by
    refine Function.isPeriodicPt_of_mem_periodicPts_of_isPeriodicPt_iterate (n := lead - i)
      (Function.mk_mem_periodicPts (Nat.sub_pos_of_lt later) again) ?_
    rw [← Function.iterate_add_apply, Nat.sub_add_cancel (Nat.le_of_lt leads)]
    exact circles.isPeriodicPt
  rw [isPeriodicPt_iterate_iff] at closes
  have turns := circles.turns
  exact circles.apart i (length + i) (by omega) (by omega) closes.symm

theorem rests_iff (circles : g.Circles n lead length) : g.Rests n m ↔ m = g.hop^[lead] n := by
  have turns := circles.turns
  have again : ∃ j, lead < j ∧ g.hop^[lead] n = g.hop^[j] n :=
    ⟨lead + length, by omega, circles.closes⟩
  constructor
  · rintro (⟨plain, -⟩ | @⟨k, -, ⟨j, later, same⟩, first⟩)
    · exact absurd plain (circles.never _)
    · rcases Nat.lt_trichotomy k lead with lt | rfl | gt
      · exact absurd same (circles.not_again lt later)
      · rfl
      · obtain ⟨j, later, same⟩ := again
        exact absurd same (first lead gt j later)
  · rintro rfl
    exact .circles circles.never again fun i leads j later => circles.not_again leads later

theorem rests_forward_iff (circles : g.Circles n lead length) :
    g.Rests n (g.forward n) ↔ length ∣ g.size - lead := by
  have fits := circles.fits
  rw [circles.rests_iff, forward_eq_iterate, circles.iterate_eq_iff (by omega)]

theorem shift (circles : g.Circles n lead length) {k : Nat} (leads : k ≤ lead) :
    g.Circles (g.hop^[k] n) (lead - k) length := by
  have moved (i : Nat) : g.hop^[i] (g.hop^[k] n) = g.hop^[i + k] n :=
    (Function.iterate_add_apply _ _ _ _).symm
  have turns := circles.turns
  refine ⟨fun i => moved i ▸ circles.never (i + k), turns, ?_, fun i j lt inside => ?_⟩
  · rw [moved, moved, Nat.sub_add_cancel leads,
      show lead - k + length + k = lead + length by omega]
    exact circles.closes
  · rw [moved, moved]
    exact circles.apart _ _ (by omega) (by omega)

theorem forward_forward_iff (circles : g.Circles n lead length) :
    g.forward (g.forward n) = g.forward n ↔ length ∣ g.size := by
  have fits := circles.fits
  have turned := Function.minimalPeriod_apply_iterate
    (Function.mk_mem_periodicPts circles.turns circles.isPeriodicPt) (g.size - lead)
  rw [← Function.iterate_add_apply, Nat.sub_add_cancel (by omega), ← forward_eq_iterate,
    circles.minimalPeriod_eq] at turned
  rw [← turned, ← Function.isPeriodicPt_iff_minimalPeriod_dvd, Function.IsPeriodicPt,
    Function.IsFixedPt, ← forward_eq_iterate]

end Circles

theorem forward_eq_of_first {k : Nat} (plain : g.Plain (g.hop^[k] n))
    (first : ∀ i < k, ¬ g.Plain (g.hop^[i] n)) : g.forward n = g.hop^[k] n := by
  have followed : g.Plain (g.hop^[g.size] n) := forward_eq_iterate n ▸ plain_forward plain
  have short : k ≤ g.size := Nat.le_of_not_lt fun long => first g.size long followed
  rw [forward_eq_iterate, ← Nat.sub_add_cancel short, Function.iterate_add_apply,
    iterate_hop_of_plain plain]

theorem rests_iff_of_works {k : Nat} (works : g.Plain (g.hop^[k] n)) :
    g.Rests n m ↔ m = g.forward n := by
  classical
  constructor
  · rintro (⟨plain, first⟩ | ⟨never, -, -⟩)
    · exact (forward_eq_of_first plain first).symm
    · exact absurd works (never k)
  · rintro rfl
    obtain ⟨j, plain, least⟩ := Nat.findX (p := fun j => g.Plain (g.hop^[j] n)) ⟨k, works⟩
    have first : ∀ i < j, ¬ g.Plain (g.hop^[i] n) := least
    exact forward_eq_of_first plain first ▸ .works plain first

theorem existsUnique_rests (g : FlowGraph) (n : Nat) : ∃! m, g.Rests n m := by
  by_cases works : ∃ k, g.Plain (g.hop^[k] n)
  · obtain ⟨k, works⟩ := works
    exact ⟨g.forward n, (rests_iff_of_works works).2 rfl, fun m => (rests_iff_of_works works).1⟩
  · obtain ⟨lead, length, circles⟩ := exists_circles (not_exists.1 works)
    exact ⟨g.hop^[lead] n, circles.rests_iff.2 rfl, fun m => circles.rests_iff.1⟩

theorem rests_forward_iff (g : FlowGraph) (n : Nat) : g.Rests n (g.forward n) ↔
    ∀ lead length, g.Circles n lead length → length ∣ g.size - lead := by
  refine ⟨fun rests lead length circles => circles.rests_forward_iff.1 rests, fun divides => ?_⟩
  by_cases works : ∃ k, g.Plain (g.hop^[k] n)
  · obtain ⟨k, works⟩ := works
    exact (rests_iff_of_works works).2 rfl
  · obtain ⟨lead, length, circles⟩ := exists_circles (not_exists.1 works)
    exact circles.rests_forward_iff.2 (divides lead length circles)

theorem forward_forward_iff (g : FlowGraph) (n : Nat) : g.forward (g.forward n) = g.forward n ↔
    ∀ lead length, g.Circles n lead length → length ∣ g.size := by
  refine ⟨fun same lead length circles => circles.forward_forward_iff.1 same, fun divides => ?_⟩
  by_cases works : ∃ k, g.Plain (g.hop^[k] n)
  · obtain ⟨k, works⟩ := works
    exact forward_of_plain (plain_forward works)
  · obtain ⟨lead, length, circles⟩ := exists_circles (not_exists.1 works)
    exact circles.forward_forward_iff.2 (divides lead length circles)

/-- Jumps come to rest at one block. The block they are followed to is that one, unless they come
    into a circle whose length does not divide what is left of the number of blocks behind those
    that lead into it; following them again changes nothing, unless it does not divide that number.
    So both hold of all blocks of a graph exactly if a circle of more than one block has nothing
    that leads into it, and a length that divides the number of blocks. -/
theorem forward_canonical_iff (g : FlowGraph) :
    (∀ n, ∃! m, g.Rests n m) ∧
    (∀ n, g.Rests n (g.forward n) ↔
      ∀ lead length, g.Circles n lead length → length ∣ g.size - lead) ∧
    (∀ n, g.forward (g.forward n) = g.forward n ↔
      ∀ lead length, g.Circles n lead length → length ∣ g.size) ∧
    ((∀ n, g.Rests n (g.forward n) ∧ g.forward (g.forward n) = g.forward n) ↔
      ∀ n lead length, g.Circles n lead length → length = 1 ∨ lead = 0 ∧ length ∣ g.size) := by
  refine ⟨existsUnique_rests g, rests_forward_iff g, forward_forward_iff g, ?_, ?_⟩
  · intro canonical n lead length circles
    rcases Nat.eq_zero_or_pos lead with rfl | leads
    · exact .inr ⟨rfl, (forward_forward_iff g n).1 (canonical n).2 0 length circles⟩
    · -- The last block that leads into the circle would have its length divide one less as well.
      have last := circles.shift (Nat.sub_le lead 1)
      rw [Nat.sub_sub_self leads] at last
      have whole := last.forward_forward_iff.1 (canonical _).2
      have rest := last.rests_forward_iff.1 (canonical _).1
      have fits := last.fits
      have one := Nat.dvd_sub whole rest
      rw [Nat.sub_sub_self (by omega)] at one
      exact .inl (Nat.dvd_one.1 one)
  · intro divides n
    refine ⟨(rests_forward_iff g n).2 fun lead length circles => ?_,
      (forward_forward_iff g n).2 fun lead length circles => ?_⟩
    · rcases divides n lead length circles with rfl | ⟨rfl, whole⟩
      · exact Nat.one_dvd _
      · exact whole
    · rcases divides n lead length circles with rfl | ⟨-, whole⟩
      · exact Nat.one_dvd _
      · exact whole

end FlowGraph

namespace Sample

def spinning : Function := ⟨0, [], .ofList [.label 0, .goto 1, .label 1, .goto 0], []⟩

def spinningGraph : FlowGraph :=
  ⟨0, #[⟨0, [(0, .label 0), (1, .goto 1)], .jumps 1⟩, ⟨1, [(2, .label 1), (3, .goto 0)], .jumps 0⟩]⟩

theorem spinning_rests : FlowGraph.ofFunction spinning = .ok spinningGraph ∧
    (∀ n, spinningGraph.Rests n (spinningGraph.forward n) ∧
      spinningGraph.forward (spinningGraph.forward n) = spinningGraph.forward n) ∧
    spinningGraph.forward 0 = 0 := by
  refine ⟨rfl, (FlowGraph.forward_canonical_iff spinningGraph).2.2.2.2 ?_, by decide⟩
  intro n lead length circles
  have fits : lead + length ≤ 2 := circles.fits
  have turns := circles.turns
  show length = 1 ∨ lead = 0 ∧ length ∣ 2
  obtain rfl | ⟨rfl, rfl⟩ : length = 1 ∨ lead = 0 ∧ length = 2 := by omega
  · exact .inl rfl
  · exact .inr ⟨rfl, Nat.dvd_refl 2⟩

/-- The same code, and a return behind it that control does not come to. -/
def outpacing : Function :=
  ⟨0, [], .ofList [.label 0, .goto 1, .label 1, .goto 0, .label 2, .ret []], []⟩

def outpacingGraph : FlowGraph :=
  ⟨0, #[⟨0, [(0, .label 0), (1, .goto 1)], .jumps 1⟩, ⟨1, [(2, .label 1), (3, .goto 0)], .jumps 0⟩,
    ⟨2, [(4, .label 2), (5, .ret [])], .returns⟩]⟩

theorem outpacing_circles : outpacingGraph.Circles 0 0 2 := by
  have turns : ∀ i, outpacingGraph.hop^[i] 0 = i % 2 := by
    intro i
    induction i with
    | zero => rfl
    | succ i ih =>
      rw [Function.iterate_succ_apply', ih]
      rcases Nat.mod_two_eq_zero_or_one i with even | odd
      · rw [even, Nat.add_mod, even]; rfl
      · rw [odd, Nat.add_mod, odd]; rfl
  refine ⟨fun i => ?_, by decide, rfl, fun i j lt inside => ?_⟩
  · rw [turns]
    rcases Nat.mod_two_eq_zero_or_one i with even | odd
    · rw [even]; unfold FlowGraph.Plain; decide
    · rw [odd]; unfold FlowGraph.Plain; decide
  · obtain ⟨rfl, rfl⟩ : i = 0 ∧ j = 1 := by omega
    decide

/-- Three jumps end in the other block of the circle. -/
theorem outpacing_moves : FlowGraph.ofFunction outpacing = .ok outpacingGraph ∧
    outpacingGraph.Rests 0 0 ∧ outpacingGraph.forward 0 = 1 ∧
    ¬ outpacingGraph.Rests 0 (outpacingGraph.forward 0) ∧
    outpacingGraph.forward (outpacingGraph.forward 0) ≠ outpacingGraph.forward 0 := by
  refine ⟨rfl, outpacing_circles.rests_iff.2 rfl, by decide, ?_, by decide⟩
  rw [outpacing_circles.rests_iff]
  decide

end Sample

end ClientScript
