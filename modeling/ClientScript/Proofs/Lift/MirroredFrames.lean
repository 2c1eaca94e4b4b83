import ClientScript.Proofs.Lift.Mirror
import ClientScript.Proofs.Lift.Outline

/-!
Operations on frames side by side: each is tracked by itself, and gives the same or something read
as the same.
-/
namespace ClientScript.Lift

variable {ctx : Context} {names : Readings}

theorem tracks_unify {a b a' b' : TypeVar} (left : ReadAs names a' (some a))
    (right : ReadAs names b' (some b)) :
    Tracks ctx names (unify a b) (unify a' b') fun _ _ _ => True := by
  refine tracks_of_serves fun f _ f₁ comes => ?_
  obtain rfl := comes_emit_iff.1 comes
  have asked : .unify a b ∈ f.effects ++ [.unify a b] := List.mem_concat_self
  exact ⟨List.subset_append_left ..,
    (serves_emit (.unify left right (same_ground asked))).to rfl rfl rfl⟩

theorem tracks_unifyAll {pairs pairs' : List (TypeVar × TypeVar)}
    (read : List.Forall₂ (fun p q => ReadAs names q.1 (some p.1) ∧ ReadAs names q.2 (some p.2))
      pairs pairs') : Tracks ctx names (unifyAll pairs) (unifyAll pairs') fun _ _ _ => True := by
  induction read with
  | nil => exact tracks_pure fun _ _ => trivial
  | cons here _ ih =>
    exact tracks_bind (tracks_unify here.1 here.2) fun names' le _ _ _ => ih.later le

theorem tracks_results (script : Int32) (types : List StackType) :
    Tracks ctx names (emit (.results script types)) (emit (.results script types))
      fun _ _ _ => True := by
  refine tracks_of_serves fun f _ f₁ comes => ?_
  obtain rfl := comes_emit_iff.1 comes
  refine ⟨List.subset_append_left .., (serves_emit (.results ?_)).to rfl rfl rfl⟩
  exact fun slot stack found => ⟨(0, .results script types), List.mem_concat_self, slot, rfl, found⟩

theorem tracks_nameless (stack : StackType) (types : List ValueType) :
    Tracks ctx names (nameless ctx stack types) (nameless ctx stack types)
      fun names' t t' => ReadAs names' t' (some t) := by
  refine tracks_of_serves fun f t f₁ comes => ?_
  obtain ⟨name, rfl⟩ := comes_nameless_iff.1 comes
  have asked : .declare t stack types ∈ f.effects ++ [.declare t stack types] :=
    List.mem_concat_self
  exact ⟨List.subset_append_left .., (serves_nameless (some t) (typed_ground asked)
    fun p pin => .inl (held_ground asked pin)).to rfl rfl rfl⟩

theorem tracks_pinned (p : Prototype) : Tracks ctx names (pinned ctx p) (pinned ctx p)
    fun names' t t' => ReadAs names' t' (some t) := tracks_nameless p.stack [p.type]

theorem tracks_typed (v : Variable) : Tracks ctx names (typed v) (typed v)
    fun _ t t' => t = .ofVariable v ∧ t' = .ofVariable v := by
  refine tracks_of_serves fun f t f₁ comes => ?_
  obtain ⟨rfl, rfl⟩ := comes_typed_iff.1 comes
  have asked : .declare (.ofVariable v) v.type [] ∈
      f.effects ++ [.declare (.ofVariable v) v.type []] := List.mem_concat_self
  have serves : Serves ctx _ names (typed v) f f _ := serves_typed (typed_ground asked)
  exact ⟨List.subset_append_left .., (serves.imp fun _ _ same => ⟨rfl, same⟩).to rfl rfl rfl⟩

theorem tracks_typedAll (vs : List Variable) :
    Tracks ctx names (vs.mapM typed) (vs.mapM typed) fun _ _ _ => True :=
  (tracks_mapM (R := fun _ _ _ => True) (fun _ v => (tracks_typed v).imp fun _ _ _ _ => trivial)
    (fun _ h => h) vs).imp fun _ _ _ _ => trivial

theorem readAs_slot (s : Slot) : ReadAs names (slotType ctx s) (some (slotType ctx s)) :=
  .ofVariable _

theorem tracks_push (type : StackType) (constant : Option Value) :
    Tracks ctx names (push ctx type constant) (push ctx type constant) fun _ s s' => s' = s := by
  refine tracks_of_serves fun f s f₁ comes => ?_
  obtain ⟨rfl, rfl⟩ := comes_push_iff.1 comes
  set e : Effect := .declare (slotType ctx ⟨f.nextSlot, type, constant⟩) type []
  have asked : e ∈ f.effects ++ [e] := List.mem_concat_self
  exact ⟨List.subset_append_left ..,
    (serves_push type constant (typed_ground asked)).to rfl rfl rfl⟩

theorem tracks_pop (type : StackType) :
    Tracks ctx names (pop ctx type) (pop ctx type) fun _ s s' => s' = s := by
  refine tracks_of_serves fun f s f₁ comes => ?_
  obtain ⟨rfl, rest, top, rfl⟩ := comes_pop_iff.1 comes
  exact ⟨List.Subset.refl _, serves_pop top⟩

theorem tracks_popAll : Tracks ctx names popAll popAll fun _ slots slots' => slots' = slots := by
  intro f slots f₁ comes names₁ g _ mirrors
  obtain ⟨rfl, rfl⟩ := comes_popAll_iff.1 comes
  refine ⟨names₁, _, _, List.prefix_rfl, comes_popAll_iff.2 ⟨rfl, rfl⟩,
    ⟨mirrors.pc, rfl, mirrors.nextSlot, nofun, mirrors.named, mirrors.backed⟩, ?_⟩
  rw [mirrors.stack]

theorem tracks_popStrings (count : Nat) :
    Tracks ctx names (popStrings ctx count) (popStrings ctx count)
      fun _ slots slots' => slots' = slots := by
  induction count generalizing names with
  | zero => exact tracks_pure fun _ _ => rfl
  | succ n ih =>
    exact tracks_same (tracks_pop .string) fun _ _ top => tracks_same ih fun _ _ below =>
      tracks_pure fun _ _ => rfl

theorem tracks_popAs (p : Prototype) : Tracks ctx names (popAs ctx p) (popAs ctx p)
    fun _ e e' => e' = e := by
  refine tracks_same (tracks_pop p.stack) fun _ _ s => ?_
  refine tracks_bind (tracks_pinned p) fun _ _ t t' read => ?_
  exact tracks_bind (tracks_unify (readAs_slot s) read) fun _ _ _ _ _ =>
    tracks_pure fun _ _ => rfl

theorem tracks_defect {α β : Type} {m : Lift β} {R : Readings → α → β → Prop} (d : Defect) :
    Tracks ctx names (defect ctx d) m R := tracks_of_not not_comes_defect

theorem tracks_operand : Tracks ctx names (operand ctx) (operand ctx) fun _ v v' => v' = v := by
  refine tracks_get fun f g pc _ => ?_
  rw [pc]
  split
  · exact tracks_pure fun _ _ => rfl
  · exact tracks_defect _

theorem tracks_intOperand :
    Tracks ctx names (intOperand ctx) (intOperand ctx) fun _ n n' => n' = n := by
  refine tracks_same tracks_operand fun _ _ v => ?_
  split
  · exact tracks_pure fun _ _ => rfl
  · exact tracks_defect _

theorem tracks_jump (offset : Int32) :
    Tracks ctx names (jump ctx offset) (jump ctx offset) fun _ l l' => l' = l := by
  refine tracks_get fun f g pc _ => ?_
  simp only [pc]
  split
  · exact tracks_pure fun _ _ => rfl
  · exact tracks_defect _

theorem tracks_switchTable :
    Tracks ctx names (switchTable ctx) (switchTable ctx) fun _ t t' => t' = t := by
  refine tracks_same tracks_intOperand fun _ _ index => ?_
  simp only
  split
  · exact tracks_pure fun _ _ => rfl
  · exact tracks_defect _

theorem tracks_caseLabels (entries : List (Int32 × Int32)) :
    Tracks ctx names (caseLabels ctx entries) (caseLabels ctx entries)
      fun _ cases cases' => cases' = cases := by
  induction entries generalizing names with
  | nil => exact tracks_pure fun _ _ => rfl
  | cons entry rest ih =>
    exact tracks_same (tracks_jump entry.2) fun _ _ label => tracks_same ih fun _ _ later =>
      tracks_pure fun _ _ => rfl

theorem tracks_peek (depth : Nat) : Tracks ctx names (peek depth) (peek depth)
    fun _ v v' => v' = v :=
  tracks_get fun f g _ stack => tracks_pure fun _ _ => by rw [stack]

theorem tracks_peekInt (depth : Nat) :
    Tracks ctx names (peekInt ctx depth) (peekInt ctx depth) fun _ n n' => n' = n := by
  refine tracks_same (tracks_peek depth) fun _ _ v => ?_
  split
  · exact tracks_pure fun _ _ => rfl
  · exact tracks_defect _

theorem tracks_typeTag (depth : Nat) :
    Tracks ctx names (typeTag ctx depth) (typeTag ctx depth) fun _ t t' => t' = t := by
  refine tracks_same (tracks_peekInt depth) fun _ _ tag => ?_
  simp only
  split
  · exact tracks_pure fun _ _ => rfl
  · exact tracks_defect _

theorem tracks_operandLocal (type : StackType) :
    Tracks ctx names (operandLocal ctx type) (operandLocal ctx type) fun _ v v' => v' = v := by
  refine tracks_same tracks_intOperand fun _ _ index => ?_
  split
  · exact tracks_pure fun _ _ => rfl
  · exact tracks_defect _

end ClientScript.Lift
