import ClientScript.Proofs.Flow.Blocks
import ClientScript.Proofs.Graph.Search
import Mathlib.Data.Finset.Card
import Mathlib.Data.Nat.Find
import Mathlib.Logic.Function.Iterate

/-!
Where control can get. Blocks that only jump on are looked through; following them comes to a
block that does work unless they jump in a circle. Control escapes a block if it can leave the
function without passing that block.
-/
namespace ClientScript.FlowGraph

variable (g : FlowGraph)

/-- Not a block that only jumps on. -/
def Plain (n : Nat) : Prop := (g.block? n).bind Block.trampoline? = none

def hop (n : Nat) : Nat := ((g.block? n).bind Block.trampoline?).getD n

/-- A way from block to block that looks through jumps; `S` holds of all blocks but the last. -/
inductive Through (S : Nat → Prop) : Nat → Nat → Prop where
  | here (n : Nat) : Through S n n
  | step {n s e : Nat} {b : Block} (inside : S n) (found : g.block? n = some b)
      (edge : s ∈ b.exit.successors) (rest : Through S (g.forward s) e) : Through S n e

/-- Control can leave the function from `n` without passing `x`. -/
def Escapes (x n : Nat) : Prop :=
  ∃ v b, g.Through (· ≠ x) n v ∧ v ≠ x ∧ g.block? v = some b ∧ b.exit.isFinal

variable {g}

theorem hop_of_plain {n : Nat} (plain : g.Plain n) : g.hop n = n := by
  rw [hop, plain]
  rfl

theorem forwardFrom_eq_iterate (hops n : Nat) : g.forwardFrom hops n = g.hop^[hops] n := by
  induction hops generalizing n with
  | zero => rfl
  | succ hops ih =>
    rw [forwardFrom, Function.iterate_succ_apply]
    cases h : (g.block? n).bind Block.trampoline? with
    | none =>
      have fixed : g.hop n = n := hop_of_plain h
      rw [fixed, Function.iterate_fixed fixed]
    | some target =>
      have moved : g.hop n = target := by rw [hop, h]; rfl
      rw [moved]
      exact ih target

theorem forward_eq_iterate (n : Nat) : g.forward n = g.hop^[g.size] n :=
  forwardFrom_eq_iterate g.size n

theorem iterate_hop_of_plain {n : Nat} (plain : g.Plain n) (k : Nat) : g.hop^[k] n = n :=
  Function.iterate_fixed (hop_of_plain plain) k

theorem forward_of_plain {n : Nat} (plain : g.Plain n) : g.forward n = n := by
  rw [forward_eq_iterate, iterate_hop_of_plain plain]

theorem inside_of_not_plain {n : Nat} (h : ¬ g.Plain n) : n < g.size := by
  by_contra outside
  refine h ?_
  have absent : g.block? n = none := Array.getElem?_eq_none (by simpa [size] using outside)
  rw [Plain, absent]
  rfl

theorem plain_forward {n k : Nat} (plain : g.Plain (g.hop^[k] n)) : g.Plain (g.forward n) := by
  classical
  have exists_plain : ∃ j, g.Plain (g.hop^[j] n) := ⟨k, plain⟩
  obtain ⟨j, first, least⟩ : ∃ j, g.Plain (g.hop^[j] n) ∧ ∀ i < j, ¬ g.Plain (g.hop^[i] n) :=
    ⟨Nat.find exists_plain, Nat.find_spec exists_plain, fun i => Nat.find_min exists_plain⟩
  have short : j ≤ g.size := by
    by_contra long
    have crowded : (Finset.range g.size).card < (Finset.range j).card := by
      simpa using Nat.lt_of_not_le long
    have maps : ∀ i ∈ Finset.range j, g.hop^[i] n ∈ Finset.range g.size := by
      intro i member
      exact Finset.mem_range.2 (inside_of_not_plain (least i (Finset.mem_range.1 member)))
    obtain ⟨a, ha, b, hb, differ, same⟩ :=
      Finset.exists_ne_map_eq_of_card_lt_of_maps_to crowded maps
    -- A repeated block can be cut out, which comes to work earlier.
    have cut : ∀ {a b : Nat}, a < b → b < j → g.hop^[a] n = g.hop^[b] n → False := by
      intro a b lt inside same
      have earlier : g.hop^[j - b + a] n = g.hop^[j] n := by
        rw [Function.iterate_add_apply, same, ← Function.iterate_add_apply,
          Nat.sub_add_cancel (Nat.le_of_lt inside)]
      exact least (j - b + a) (by omega) (earlier ▸ first)
    rcases Nat.lt_or_gt_of_ne differ with lt | gt
    · exact cut lt (Finset.mem_range.1 hb) same
    · exact cut gt (Finset.mem_range.1 ha) same.symm
  rw [forward_eq_iterate, ← Nat.sub_add_cancel short, Function.iterate_add_apply,
    iterate_hop_of_plain first]
  exact first

theorem plain_forward_forward {n : Nat} (plain : g.Plain (g.forward (g.forward n))) :
    g.forward (g.forward n) = g.forward n := by
  refine forward_of_plain (plain_forward (k := g.size + g.size) ?_)
  rwa [Function.iterate_add_apply, ← forward_eq_iterate, ← forward_eq_iterate]

theorem target_of_not_plain {n : Nat} (h : ¬ g.Plain n) :
    ∃ b, g.block? n = some b ∧ b.exit = .jumps (g.hop n) ∧ b.body = [] := by
  unfold Plain at h
  cases found : g.block? n with
  | none => simp [found] at h
  | some b =>
    refine ⟨b, rfl, ?_⟩
    rw [found, Option.bind_some] at h
    unfold Block.trampoline? at h
    split at h
    · rename_i target jumps
      split at h
      · rename_i empty
        have moved : g.hop n = target := by simp [hop, found, Block.trampoline?, jumps, empty]
        exact ⟨by rw [jumps, moved], by simpa using empty⟩
      · simp at h
    · simp at h

theorem statements_ne_nil (wf : g.WellFormed) {n m : Nat} {b : Block} (found : g.block? n = some b)
    (plain : g.Plain n) (exit : b.exit = .jumps m ∨ b.exit = .falls (some m)) :
    b.statements ≠ [] := by
  suffices h : b.body ≠ [] by simpa [Block.statements] using h
  rcases exit with exit | exit
  · intro empty
    simp [Plain, found, Block.trampoline?, exit, empty] at plain
  · have left := wf.leaves found
    rw [exit] at left
    generalize next : following g.size n = next at left
    generalize ends : b.entries.getLast?.map (·.2) = last at left
    cases left with
    | falls harmless =>
      have early : n + 1 < g.size := by
        unfold following at next
        split at next
        · assumption
        · simp at next
      obtain ⟨⟨pc, i⟩, at_end, code⟩ := wf.codeEnds early found
      have quiet : i.isTerminal = false := harmless i (by rw [← ends, at_end]; rfl)
      have statement : i.isStatement = true := by
        cases i <;> simp_all [Instruction.isTerminal, Instruction.anchor?, Instruction.isStatement]
      exact List.ne_nil_of_mem (List.mem_filter.2 ⟨List.mem_of_getLast? at_end, statement⟩)

theorem Through.mono {S T : Nat → Prop} (le : ∀ n, S n → T n) {n e : Nat}
    (h : g.Through S n e) : g.Through T n e := by
  induction h with
  | here n => exact .here n
  | step inside found edge _ ih => exact .step (le _ inside) found edge ih

theorem Through.trans {S : Nat → Prop} {a b c : Nat} (h : g.Through S a b)
    (k : g.Through S b c) : g.Through S a c := by
  induction h with
  | here n => exact k
  | step inside found edge _ ih => exact .step inside found edge (ih k)

theorem Escapes.ne {x n : Nat} (h : g.Escapes x n) : n ≠ x := by
  obtain ⟨v, b, way, other, -⟩ := h
  cases way with
  | here => exact other
  | step inside => exact inside

theorem Escapes.prepend {x a n : Nat} (way : g.Through (· ≠ x) a n) (h : g.Escapes x n) :
    g.Escapes x a := by
  obtain ⟨v, b, later, other, found, final⟩ := h
  exact ⟨v, b, way.trans later, other, found, final⟩

theorem Through.plain_of_final {S : Nat → Prop} {s u v : Nat} (way : g.Through S u v)
    (start : u = g.forward s) {b : Block} (found : g.block? v = some b) (final : b.exit.isFinal) :
    g.Plain u := by
  induction way generalizing s with
  | here u =>
    by_contra circle
    obtain ⟨b', found', jumps, -⟩ := target_of_not_plain circle
    rw [found] at found'
    rw [Option.some.inj found', jumps] at final
    simp [Exit.isFinal] at final
  | @step u s' v b' _ found' edge _ ih =>
    by_contra circle
    obtain ⟨b'', found'', jumps, -⟩ := target_of_not_plain circle
    rw [found''] at found'
    rw [← Option.some.inj found', jumps] at edge
    simp only [Exit.successors, Exit.edges, List.map_cons, List.map_nil,
      List.mem_singleton] at edge
    have later := ih (s := s') rfl found
    rw [edge, start] at later
    refine circle (start ▸ plain_forward (k := g.size + (1 + g.size)) ?_)
    rwa [Function.iterate_add_apply, Function.iterate_add_apply, ← forward_eq_iterate,
      ← forward_eq_iterate]

end ClientScript.FlowGraph
