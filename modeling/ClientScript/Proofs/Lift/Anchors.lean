import ClientScript.Proofs.Chain.Segment

/-!
The code of a lifted function in order: the instructions of the script positions, each target with
its label directly in front.
-/
namespace ClientScript.Lift

/-- Instructions from a position on, each under its position, and in front of a target its label
    under a number of its own. -/
def labelled (number : Nat → Nat) (targets : List Label) :
    Nat → List Instruction → List (Nat × Instruction)
  | _, [] => []
  | pc, i :: is =>
    (if pc ∈ targets then [(number pc, .label pc)] else []) ++
      (pc, i) :: labelled number targets (pc + 1) is

variable {number number' : Nat → Nat} {targets targets' : List Label} {is js : List Instruction}

theorem labelled_append {pc : Nat} : labelled number targets pc (is ++ js) =
    labelled number targets pc is ++ labelled number targets (pc + is.length) js := by
  induction is generalizing pc with
  | nil => rfl
  | cons i is ih =>
    rw [List.cons_append, labelled, labelled, ih, List.length_cons, Nat.add_right_comm,
      Nat.add_assoc]
    simp

theorem mem_labelled (pc : Nat) {n : Nat} {i : Instruction} (found : is[n]? = some i) :
    (pc + n, i) ∈ labelled number targets pc is := by
  induction is generalizing pc n with
  | nil => simp at found
  | cons j is ih =>
    rw [labelled, List.mem_append, List.mem_cons]
    cases n with
    | zero =>
      obtain rfl : j = i := by simpa using found
      exact .inr (.inl rfl)
    | succ n =>
      have later := ih (pc + 1) (n := n) (by simpa using found)
      rw [Nat.add_right_comm] at later
      exact .inr (.inr later)

theorem labelled_congr {pc : Nat}
    (same : ∀ q, pc ≤ q → q < pc + is.length → (q ∈ targets ↔ q ∈ targets') ∧
      number q = number' q) : labelled number targets pc is = labelled number' targets' pc is := by
  induction is generalizing pc with
  | nil => rfl
  | cons i is ih =>
    rw [List.length_cons] at same
    obtain ⟨among, numbers⟩ := same pc (Nat.le_refl _) (by omega)
    rw [labelled, labelled, ih fun q low high => same q (by omega) (by omega)]
    simp only [among, numbers]

theorem holds_ofList (insns : List Instruction) : (Chain.ofList insns).links.size = insns.length ∧
    (Chain.ofList insns).Holds (labelled number [] 0 insns) := by
  induction insns using List.reverseRecOn with
  | nil => exact ⟨rfl, Chain.holds_empty⟩
  | append_singleton insns i ih =>
    have eq : Chain.ofList (insns ++ [i]) = (Chain.ofList insns).push i := by
      simp [Chain.ofList]
    have pushed := ih.2.push i
    rw [ih.1] at pushed
    rw [eq, Chain.links_push_size, ih.1, labelled_append]
    refine ⟨by simp, ?_⟩
    simpa [labelled] using pushed

theorem holds_insert {insns : List Instruction} {c : Chain} {l : Label}
    (h : c.Holds (labelled number targets 0 insns)) (inside : l < insns.length)
    (new : l ∉ targets) : ∃ number',
      ((c.insertBefore? l (.label l)).getD c).Holds (labelled number' (l :: targets) 0 insns) := by
  have split := List.take_append_drop l insns
  rw [List.drop_eq_getElem_cons inside] at split
  have size : (insns.take l).length = l := List.length_take_of_le (Nat.le_of_lt inside)
  rw [← split, labelled_append, size, Nat.zero_add, labelled, if_neg new, List.nil_append] at h
  obtain ⟨c', made, holds⟩ := h.insertBefore (.label l)
  refine ⟨fun q => if q = l then c.links.size else number q, ?_⟩
  rw [made, Option.getD_some, ← split, labelled_append, size, Nat.zero_add, labelled,
    if_pos (List.mem_cons_self ..)]
  have before : labelled number targets 0 (insns.take l) =
      labelled (fun q => if q = l then c.links.size else number q) (l :: targets) 0
        (insns.take l) := by
    refine labelled_congr fun q _ high => ?_
    have ne : q ≠ l := by omega
    simp [ne]
  have behind : labelled number targets (l + 1) (insns.drop (l + 1)) =
      labelled (fun q => if q = l then c.links.size else number q) (l :: targets) (l + 1)
        (insns.drop (l + 1)) := by
    refine labelled_congr fun q low _ => ?_
    have ne : q ≠ l := by omega
    simp [ne]
  rw [← before, ← behind]
  simpa using holds

/-- Labels put in one after another. -/
theorem holds_fold {insns : List Instruction} {anchors : List Label} {c : Chain}
    (h : c.Holds (labelled number targets 0 insns)) (inside : ∀ l ∈ anchors, l < insns.length)
    (nodup : anchors.Nodup) (new : ∀ l ∈ anchors, l ∉ targets) : ∃ number',
      (anchors.foldl (fun c l => (c.insertBefore? l (.label l)).getD c) c).Holds
        (labelled number' (anchors.reverse ++ targets) 0 insns) := by
  induction anchors generalizing number targets c with
  | nil => exact ⟨number, h⟩
  | cons l anchors ih =>
    obtain ⟨number', one⟩ := holds_insert h (inside l (by simp)) (new l (by simp))
    rw [List.nodup_cons] at nodup
    have others : ∀ l' ∈ anchors, l' ∉ l :: targets := by
      intro l' member among
      rcases List.mem_cons.1 among with rfl | old
      · exact nodup.1 member
      · exact new l' (by simp [member]) old
    obtain ⟨number'', all⟩ := ih one (fun l' member => inside l' (by simp [member])) nodup.2 others
    exact ⟨number'', by simpa using all⟩

theorem holds_anchored (insns : List Instruction) :
    ∃ number, (anchored insns).Holds (labelled number (jumpTargets insns) 0 insns) := by
  have start : (Chain.ofList insns).Holds (labelled id [] 0 insns) := (holds_ofList insns).2
  obtain ⟨number, holds⟩ := holds_fold start
    (fun l member => List.mem_range.1 (List.mem_filter.1 member).1)
    (List.nodup_range.filter fun l => (jumpTargets insns).contains l) (by simp)
  have same : labelled number
      (((List.range insns.length).filter fun l => (jumpTargets insns).contains l).reverse ++ []) 0
        insns = labelled number (jumpTargets insns) 0 insns := by
    refine labelled_congr fun q _ high => ⟨?_, rfl⟩
    simp
    omega
  exact ⟨number, same ▸ holds⟩

theorem toList_anchored (insns : List Instruction) :
    ∃ number, (anchored insns).toList = labelled number (jumpTargets insns) 0 insns := by
  obtain ⟨number, holds⟩ := holds_anchored insns
  exact ⟨number, holds.toList_eq⟩

def withLabels (targets : List Label) : Nat → List Instruction → List Instruction
  | _, [] => []
  | pc, i :: is =>
    (if pc ∈ targets then [.label pc] else []) ++ i :: withLabels targets (pc + 1) is

theorem map_labelled (number : Nat → Nat) (targets : List Label) (pc : Nat)
    (is : List Instruction) :
    (labelled number targets pc is).map Prod.snd = withLabels targets pc is := by
  induction is generalizing pc with
  | nil => rfl
  | cons i is ih =>
    rw [labelled, withLabels, List.map_append, List.map_cons, ih]
    split <;> rfl

theorem instructions_anchored (insns : List Instruction) :
    (anchored insns).instructions = withLabels (jumpTargets insns) 0 insns := by
  obtain ⟨number, order⟩ := toList_anchored insns
  rw [Chain.instructions, order]
  exact map_labelled ..

theorem withLabels_drop (targets : List Label) {pc : Nat} {i : Instruction}
    (here : is[pc]? = some i) :
    withLabels targets pc (is.drop pc) = (if pc ∈ targets then [.label pc] else []) ++
      i :: withLabels targets (pc + 1) (is.drop (pc + 1)) := by
  obtain ⟨inside, rfl⟩ := List.getElem?_eq_some_iff.1 here
  rw [List.drop_eq_getElem_cons inside, withLabels]

theorem mem_withLabels {pc : Nat} {i : Instruction} (member : i ∈ withLabels targets pc is) :
    i ∈ is ∨ ∃ l, i = .label l := by
  induction is generalizing pc with
  | nil => simp [withLabels] at member
  | cons j is ih =>
    rw [withLabels, List.mem_append, List.mem_cons] at member
    rcases member with label | rfl | later
    · split at label
      · exact .inr ⟨pc, List.mem_singleton.1 label⟩
      · simp at label
    · exact .inl (by simp)
    · rcases ih later with among | label
      · exact .inl (by simp [among])
      · exact .inr label

theorem mem_withLabels_of_mem {pc : Nat} {i : Instruction} (member : i ∈ is) :
    i ∈ withLabels targets pc is := by
  induction is generalizing pc with
  | nil => simp at member
  | cons j is ih =>
    rw [withLabels, List.mem_append, List.mem_cons]
    rcases List.mem_cons.1 member with rfl | later
    · exact .inr (.inl rfl)
    · exact .inr (.inr (ih later))

end ClientScript.Lift
