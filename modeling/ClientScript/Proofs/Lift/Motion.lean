import ClientScript.Lift.Code
import Mathlib.Data.List.Forall2

/-!
Motion of the operand stack. A lift that gives something takes slots off the stack, puts new ones
there, numbered on, and asks for effects. What the operations on frames do is said here once, and
parts of a lift are put together: taking comes before putting.
-/
namespace ClientScript.Lift

variable {α β : Type}

def Comes (m : Lift α) (f : Frame) (a : α) (f' : Frame) : Prop := m.run.run f = (.ok a, f')

section

variable {f f' : Frame} {a b : α}

theorem comes_pure : Comes (pure a) f b f' ↔ b = a ∧ f' = f := by
  constructor
  · intro h
    cases h
    exact ⟨rfl, rfl⟩
  · rintro ⟨rfl, rfl⟩
    rfl

theorem comes_bind {m : Lift α} {k : α → Lift β} {b : β} :
    Comes (m >>= k) f b f' ↔ ∃ a f₁, Comes m f a f₁ ∧ Comes (k a) f₁ b f' := by
  rcases first : m.run.run f with ⟨result, middle⟩
  simp only [Comes, ExceptT.run_bind, StateT.run_bind, first]
  cases result with
  | error e =>
    constructor
    · intro h
      have failed : Except.error e = Except.ok b := congrArg Prod.fst h
      simp at failed
    · rintro ⟨a, f₁, h, -⟩
      have failed : Except.error e = Except.ok a := congrArg Prod.fst h
      simp at failed
  | ok a =>
    constructor
    · exact fun h => ⟨a, middle, rfl, h⟩
    · rintro ⟨a', f₁, h, later⟩
      obtain ⟨same, rfl⟩ := Prod.mk.inj h
      obtain rfl := Except.ok.inj same
      exact later

theorem run_of_comes {m : Lift α} {k : α → Lift β} {f₁ : Frame} (first : Comes m f a f₁) :
    (m >>= k).run.run f = (k a).run.run f₁ := by
  unfold Comes at first
  simp only [ExceptT.run_bind, StateT.run_bind, first]
  rfl

theorem not_comes_throw {e : Failure} : ¬ Comes (throw e) f a f' := by
  intro h
  have failed : Except.error e = Except.ok a := congrArg Prod.fst h
  simp at failed

theorem comes_get {g : Frame} : Comes get f g f' ↔ g = f ∧ f' = f := by
  constructor
  · intro h
    cases h
    exact ⟨rfl, rfl⟩
  · rintro ⟨rfl, rfl⟩
    rfl

theorem comes_get_bind {k : Frame → Lift β} {b : β} :
    Comes (get >>= k) f b f' ↔ Comes (k f) f b f' := by
  rw [comes_bind]
  constructor
  · rintro ⟨_, _, seen, later⟩
    obtain ⟨rfl, rfl⟩ := comes_get.1 seen
    exact later
  · exact fun later => ⟨f, f, comes_get.2 ⟨rfl, rfl⟩, later⟩

theorem comes_set {g : Frame} {u : PUnit} : Comes (set g) f u f' ↔ f' = g := by
  constructor
  · intro h
    cases h
    rfl
  · rintro rfl
    rfl

theorem comes_modify {u : PUnit} {g : Frame → Frame} : Comes (modify g) f u f' ↔ f' = g f := by
  constructor
  · intro h
    cases h
    rfl
  · rintro rfl
    rfl

theorem not_comes_imbalance {ctx : Context} {cause : Imbalance} :
    ¬ Comes (imbalance ctx cause) f a f' := by
  intro h
  obtain ⟨_, _, -, h⟩ := comes_bind.1 h
  exact not_comes_throw h

theorem not_comes_malformed {ctx : Context} {cause : Malformation} :
    ¬ Comes (malformed ctx cause) f a f' := not_comes_throw

theorem not_comes_defect {ctx : Context} {d : Defect} : ¬ Comes (defect ctx d) f a f' := by
  intro h
  obtain ⟨_, _, -, h⟩ := comes_bind.1 h
  exact not_comes_malformed h

end

/-- Between two frames slots are taken off the stack, the top first, others are put there, and
    effects are asked for. -/
structure Moved (f f' : Frame) (taken put : List Slot) (asked : List Effect) : Prop where
  stack : ∃ kept, f.stack = taken ++ kept ∧ f'.stack = put.reverse ++ kept
  numbers : put.map Slot.id = List.range' f.nextSlot put.length
  next : f'.nextSlot = f.nextSlot + put.length
  effects : f'.effects = f.effects ++ asked

namespace Moved

variable {f f₁ f' : Frame} {taken taken' put put' : List Slot} {asked asked' : List Effect}

theorem refl (f : Frame) : Moved f f [] [] [] :=
  ⟨⟨f.stack, rfl, rfl⟩, rfl, rfl, (List.append_nil _).symm⟩

theorem trans (first : Moved f f₁ taken [] asked) (later : Moved f₁ f' taken' put asked') :
    Moved f f' (taken ++ taken') put (asked ++ asked') := by
  obtain ⟨kept, before, between⟩ := first.stack
  obtain ⟨kept', between', after⟩ := later.stack
  obtain rfl : kept = taken' ++ kept' := between.symm.trans between'
  have same : f₁.nextSlot = f.nextSlot := first.next
  refine ⟨⟨kept', ?_, after⟩, ?_, ?_, ?_⟩
  · rw [before, List.append_assoc]
  · rw [later.numbers, same]
  · rw [later.next, same]
  · rw [later.effects, first.effects, List.append_assoc]

theorem onward (first : Moved f f₁ taken put asked) (later : Moved f₁ f' [] put' asked') :
    Moved f f' taken (put ++ put') (asked ++ asked') := by
  obtain ⟨kept, before, between⟩ := first.stack
  obtain ⟨kept', between', after⟩ := later.stack
  obtain rfl : put.reverse ++ kept = kept' := between.symm.trans between'
  refine ⟨⟨kept, before, ?_⟩, ?_, ?_, ?_⟩
  · rw [after, List.reverse_append, List.append_assoc]
  · rw [List.map_append, first.numbers, later.numbers, first.next, List.length_append,
      List.range'_append_1]
  · rw [later.next, first.next, List.length_append, Nat.add_assoc]
  · rw [later.effects, first.effects, List.append_assoc]

end Moved

variable {ctx : Context} {f f' : Frame}

theorem moved_emit {e : Effect} {u : Unit} (h : Comes (emit e) f u f') : Moved f f' [] [] [e] := by
  obtain rfl := comes_modify.1 h
  exact ⟨⟨f.stack, rfl, rfl⟩, rfl, rfl, rfl⟩

theorem moved_unify {a b : TypeVar} {u : Unit} (h : Comes (unify a b) f u f') :
    Moved f f' [] [] [.unify a b] := moved_emit h

theorem moved_unifyAll {pairs : List (TypeVar × TypeVar)} {u : Unit}
    (h : Comes (unifyAll pairs) f u f') :
    Moved f f' [] [] (pairs.map fun p => .unify p.1 p.2) := by
  induction pairs generalizing f with
  | nil =>
    obtain ⟨-, rfl⟩ := comes_pure.1 h
    exact .refl _
  | cons p rest ih =>
    obtain ⟨_, f₁, one, h⟩ := comes_bind.1 h
    exact (moved_unify one).onward (ih h)

theorem moved_nameless {stack : StackType} {types : List ValueType} {t : TypeVar}
    (h : Comes (nameless ctx stack types) f t f') :
    Moved f f' [] [] [.declare t stack types] := by
  cases h
  exact ⟨⟨f.stack, rfl, rfl⟩, rfl, rfl, rfl⟩

theorem moved_pinned {p : Prototype} {t : TypeVar} (h : Comes (pinned ctx p) f t f') :
    Moved f f' [] [] [.declare t p.stack [p.type]] := moved_nameless h

theorem moved_typed {v : Variable} {t : TypeVar} (h : Comes (typed v) f t f') :
    t = .ofVariable v ∧ Moved f f' [] [] [.declare (.ofVariable v) v.type []] := by
  obtain ⟨_, f₁, one, h⟩ := comes_bind.1 h
  obtain ⟨rfl, rfl⟩ := comes_pure.1 h
  exact ⟨rfl, moved_emit one⟩

theorem moved_mapM {g : α → Lift β} {R : α → β → Prop}
    (each : ∀ {a f b f'}, Comes (g a) f b f' → R a b ∧ ∃ asked, Moved f f' [] [] asked)
    {as : List α} {bs : List β} (h : Comes (as.mapM g) f bs f') :
    List.Forall₂ R as bs ∧ ∃ asked, Moved f f' [] [] asked := by
  induction as generalizing f bs with
  | nil =>
    obtain ⟨rfl, rfl⟩ := comes_pure.1 h
    exact ⟨.nil, _, .refl _⟩
  | cons a as ih =>
    rw [List.mapM_cons] at h
    obtain ⟨b, f₁, one, h₁⟩ := comes_bind.1 h
    obtain ⟨bs', f₂, rest, h₂⟩ := comes_bind.1 h₁
    obtain ⟨rfl, rfl⟩ := comes_pure.1 h₂
    obtain ⟨related, _, moved⟩ := each one
    obtain ⟨others, _, later⟩ := ih rest
    exact ⟨.cons related others, _, moved.onward later⟩

theorem moved_pinnedAll {ps : List Prototype} {ts : List TypeVar}
    (h : Comes (ps.mapM (pinned ctx)) f ts f') :
    ps.length = ts.length ∧ ∃ asked, Moved f f' [] [] asked := by
  obtain ⟨related, moved⟩ := moved_mapM (R := fun _ _ => True)
    (fun one => ⟨trivial, _, moved_pinned one⟩) h
  exact ⟨related.length_eq, moved⟩

theorem moved_typedAll {vs : List Variable} {ts : List TypeVar}
    (h : Comes (vs.mapM typed) f ts f') :
    ts = vs.map .ofVariable ∧ ∃ asked, Moved f f' [] [] asked := by
  obtain ⟨related, moved⟩ := moved_mapM (R := fun v t => t = .ofVariable v)
    (fun one => ⟨(moved_typed one).1, _, (moved_typed one).2⟩) h
  have same : ts = vs.map .ofVariable := by
    clear moved h
    induction related with
    | nil => rfl
    | cons one _ ih => rw [one, ih, List.map_cons]
  exact ⟨same, moved⟩

theorem moved_push {type : StackType} {constant : Option Value} {s : Slot}
    (h : Comes (push ctx type constant) f s f') : s.type = type ∧ s.constant = constant ∧
      Moved f f' [] [s] [.declare (slotType ctx s) type []] := by
  cases h
  exact ⟨rfl, rfl, ⟨f.stack, rfl, rfl⟩, rfl, rfl, rfl⟩

theorem moved_pushAll {types : List StackType} {slots : List Slot}
    (h : Comes (pushAll ctx types) f slots f') : slots.map Slot.type = types ∧
      Moved f f' [] slots (slots.map fun s => .declare (slotType ctx s) s.type []) := by
  unfold pushAll at h
  induction types generalizing f slots with
  | nil =>
    obtain ⟨rfl, rfl⟩ := comes_pure.1 h
    exact ⟨rfl, .refl _⟩
  | cons t types ih =>
    rw [List.mapM_cons] at h
    obtain ⟨s, f₁, one, next⟩ := comes_bind.1 h
    obtain ⟨slots', f₂, two, last⟩ := comes_bind.1 next
    obtain ⟨rfl, rfl⟩ := comes_pure.1 last
    obtain ⟨rfl, -, moved⟩ := moved_push one
    obtain ⟨rfl, later⟩ := ih two
    exact ⟨rfl, moved.onward later⟩

theorem moved_pop {type : StackType} {s : Slot} (h : Comes (pop ctx type) f s f') :
    s.type = type ∧ Moved f f' [s] [] [] := by
  have next := comes_get_bind.1 h
  split at next
  · exact absurd next not_comes_imbalance
  · rename_i slot below stack
    obtain ⟨_, f₂, put, rest⟩ := comes_bind.1 next
    obtain rfl := comes_set.1 put
    split at rest
    · rename_i same
      obtain ⟨rfl, rfl⟩ := comes_pure.1 rest
      exact ⟨same, ⟨below, stack, rfl⟩, rfl, rfl, (List.append_nil _).symm⟩
    · exact absurd rest not_comes_imbalance

theorem moved_popMany {count : Nat} {slots : List Slot}
    (h : Comes (popMany ctx count) f slots f') :
    slots.length = count ∧ Moved f f' slots.reverse [] [] := by
  have next := comes_get_bind.1 h
  split at next
  · exact absurd next not_comes_imbalance
  · rename_i enough
    obtain ⟨_, f₂, put, rest⟩ := comes_bind.1 next
    obtain rfl := comes_set.1 put
    obtain ⟨rfl, rfl⟩ := comes_pure.1 rest
    refine ⟨by simp; omega, ⟨_, ?_, rfl⟩, rfl, rfl, (List.append_nil _).symm⟩
    rw [List.reverse_reverse, List.take_append_drop]

theorem moved_popAll {slots : List Slot} (h : Comes popAll f slots f') :
    f'.stack = [] ∧ Moved f f' slots.reverse [] [] := by
  have next := comes_get_bind.1 h
  obtain ⟨_, f₂, put, rest⟩ := comes_bind.1 next
  obtain rfl := comes_set.1 put
  obtain ⟨rfl, rfl⟩ := comes_pure.1 rest
  exact ⟨rfl, ⟨[], by simp, rfl⟩, rfl, rfl, (List.append_nil _).symm⟩

theorem moved_popStrings {count : Nat} {slots : List Slot}
    (h : Comes (popStrings ctx count) f slots f') : Moved f f' slots.reverse [] [] := by
  induction count generalizing f f' slots with
  | zero =>
    obtain ⟨rfl, rfl⟩ := comes_pure.1 h
    exact .refl _
  | succ n ih =>
    obtain ⟨top, f₁, one, next⟩ := comes_bind.1 h
    obtain ⟨below, f₂, two, last⟩ := comes_bind.1 next
    obtain ⟨rfl, rfl⟩ := comes_pure.1 last
    have both := (moved_pop one).2.trans (ih two)
    rwa [List.reverse_append]

theorem moved_popAs {p : Prototype} {e : Expr} (h : Comes (popAs ctx p) f e f') :
    ∃ s asked, e = slotExpr ctx s ∧ s.type = p.stack ∧ Moved f f' [s] [] asked := by
  obtain ⟨s, f₁, one, next⟩ := comes_bind.1 h
  obtain ⟨t, f₂, two, rest⟩ := comes_bind.1 next
  obtain ⟨_, f₃, three, last⟩ := comes_bind.1 rest
  obtain ⟨rfl, rfl⟩ := comes_pure.1 last
  obtain ⟨type, moved⟩ := moved_pop one
  exact ⟨s, _, rfl, type, (moved.onward (moved_pinned two)).onward (moved_unify three)⟩

theorem moved_popConstant {type : StackType} {v : Value} (h : Comes (popConstant ctx type) f v f') :
    ∃ s, s.constant = some v ∧ Moved f f' [s] [] [] := by
  obtain ⟨s, f₁, one, next⟩ := comes_bind.1 h
  split at next
  · rename_i v' held
    obtain ⟨rfl, rfl⟩ := comes_pure.1 next
    exact ⟨s, held, (moved_pop one).2⟩
  · exact absurd next not_comes_defect

theorem moved_popInt {n : Int32} (h : Comes (popInt ctx) f n f') :
    ∃ s, s.constant = some (.int n) ∧ Moved f f' [s] [] [] := by
  obtain ⟨v, f₁, one, next⟩ := comes_bind.1 h
  split at next
  · obtain ⟨rfl, rfl⟩ := comes_pure.1 next
    exact moved_popConstant one
  · exact absurd next not_comes_defect

theorem moved_popText {text : String} (h : Comes (popText ctx) f text f') :
    ∃ s, s.constant = some (.str text) ∧ Moved f f' [s] [] [] := by
  obtain ⟨v, f₁, one, next⟩ := comes_bind.1 h
  split at next
  · obtain ⟨rfl, rfl⟩ := comes_pure.1 next
    exact moved_popConstant one
  · exact absurd next not_comes_defect

theorem comes_peek {depth : Nat} {v : Option Value} (h : Comes (peek depth) f v f') :
    v = f.stack[depth]?.bind Slot.constant ∧ f' = f := by
  have next := comes_get_bind.1 h
  exact comes_pure.1 next

theorem stays_peekInt {depth : Nat} {n : Int32} (h : Comes (peekInt ctx depth) f n f') :
    f' = f := by
  obtain ⟨v, f₁, one, next⟩ := comes_bind.1 h
  obtain ⟨-, rfl⟩ := comes_peek one
  split at next
  · exact (comes_pure.1 next).2
  · exact absurd next not_comes_defect

theorem stays_operand {v : Value} (h : Comes (operand ctx) f v f') : f' = f := by
  have next := comes_get_bind.1 h
  split at next
  · exact (comes_pure.1 next).2
  · exact absurd next not_comes_defect

theorem stays_intOperand {n : Int32} (h : Comes (intOperand ctx) f n f') : f' = f := by
  obtain ⟨v, f₁, one, next⟩ := comes_bind.1 h
  obtain rfl := stays_operand one
  split at next
  · exact (comes_pure.1 next).2
  · exact absurd next not_comes_defect

theorem stays_jump {offset : Int32} {l : Label} (h : Comes (jump ctx offset) f l f') : f' = f := by
  have next := comes_get_bind.1 h
  simp only at next
  split at next
  · exact (comes_pure.1 next).2
  · exact absurd next not_comes_defect

theorem stays_typeTag {depth : Nat} {t : ValueType} (h : Comes (typeTag ctx depth) f t f') :
    f' = f := by
  obtain ⟨n, f₁, one, next⟩ := comes_bind.1 h
  obtain rfl := stays_peekInt one
  simp only at next
  split at next
  · exact (comes_pure.1 next).2
  · exact absurd next not_comes_defect

theorem stays_switchTable {t : IntMap Int32} (h : Comes (switchTable ctx) f t f') : f' = f := by
  obtain ⟨n, f₁, one, next⟩ := comes_bind.1 h
  obtain rfl := stays_intOperand one
  simp only at next
  split at next
  · exact (comes_pure.1 next).2
  · exact absurd next not_comes_defect

theorem stays_caseLabels {entries : List (Int32 × Int32)} {cases : List (Int32 × Label)}
    (h : Comes (caseLabels ctx entries) f cases f') : f' = f := by
  induction entries generalizing f f' cases with
  | nil => exact (comes_pure.1 h).2
  | cons entry rest ih =>
    obtain ⟨l, f₁, one, next⟩ := comes_bind.1 h
    obtain rfl := stays_jump one
    obtain ⟨later, f₂, two, last⟩ := comes_bind.1 next
    obtain rfl := ih two
    exact (comes_pure.1 last).2

theorem stays_stored {storage : Storage} {v : Variable} (h : Comes (stored ctx storage) f v f') :
    f' = f := by
  obtain ⟨n, f₁, one, next⟩ := comes_bind.1 h
  obtain rfl := stays_intOperand one
  split at next
  · exact (comes_pure.1 next).2
  · exact absurd next not_comes_malformed

variable {table : Table} {opcode : Opcode} {opcodes : List Opcode} {i : Instruction}
  {insns : List Instruction} {pc : Nat}

theorem comes_position (h : Comes (position ctx table opcode) f i f') :
    ∃ c, table.lookup? opcode = some c ∧ Comes (command ctx opcode c) f i f' ∧
      (i.isTerminal = true → f'.stack = []) := by
  unfold position at h
  split at h
  · obtain ⟨_, _, -, h₁⟩ := comes_bind.1 h
    exact absurd h₁ not_comes_throw
  · rename_i c found
    obtain ⟨i', f₁, one, h₁⟩ := comes_bind.1 h
    have h₂ := comes_get_bind.1 h₁
    split at h₂
    · exact absurd h₂ not_comes_imbalance
    · rename_i balanced
      obtain ⟨rfl, rfl⟩ := comes_pure.1 h₂
      exact ⟨c, found, one, fun terminal => by simpa [terminal] using balanced⟩

theorem comes_positions_cons :
    Comes (positions ctx table pc (opcode :: opcodes)) f insns f' ↔ ∃ i f₁ rest,
      Comes (position ctx table opcode) { f with pc := pc } i f₁ ∧
      Comes (positions ctx table (pc + 1) opcodes) f₁ rest f' ∧ insns = i :: rest := by
  rw [positions]
  constructor
  · intro h
    obtain ⟨_, f₁, moved, h₁⟩ := comes_bind.1 h
    obtain rfl := comes_modify.1 moved
    obtain ⟨i, f₂, one, h₂⟩ := comes_bind.1 h₁
    obtain ⟨rest, f₃, later, h₃⟩ := comes_bind.1 h₂
    obtain ⟨rfl, rfl⟩ := comes_pure.1 h₃
    exact ⟨i, f₂, rest, one, later, rfl⟩
  · rintro ⟨i, f₂, rest, one, later, rfl⟩
    exact comes_bind.2 ⟨⟨⟩, _, comes_modify.2 rfl, comes_bind.2 ⟨i, f₂, one, comes_bind.2 ⟨rest, f',
      later, comes_pure.2 ⟨rfl, rfl⟩⟩⟩⟩

theorem length_positions (h : Comes (positions ctx table pc opcodes) f insns f') :
    insns.length = opcodes.length := by
  induction opcodes generalizing pc f insns with
  | nil =>
    obtain ⟨rfl, -⟩ := comes_pure.1 h
    rfl
  | cons opcode opcodes ih =>
    obtain ⟨i, f₁, rest, -, later, rfl⟩ := comes_positions_cons.1 h
    rw [List.length_cons, ih later, List.length_cons]

end ClientScript.Lift
