import ClientScript.Proofs.Lift.Scoping

/-!
Operations on frames keep frames sound: a slot that is pushed is declared with it, a nameless value
has a number that was not used before, and what is popped was declared when it was pushed.
-/
namespace ClientScript.Lift

variable {ctx : Context}
variable {known : List TypeVar} {f f' : Frame}

theorem Sound.emit {e : Effect} (sound : Sound ctx f) (follows : Follows ctx f.effects e)
    (effects : f'.effects = f.effects ++ [e])
    (numbers : ∀ n, .ofValue ctx.script n ∈ declared f'.effects → n < f'.nextValue)
    (slots : ∀ s ∈ f'.stack, s ∈ f.stack ∨ slotType ctx s ∈ e.declares) :
    Later ctx f.effects e.declares f' := by
  have all : declared f'.effects = declared f.effects ++ e.declares := by
    rw [effects, declared_append, declared_one]
  refine ⟨⟨?_, numbers, ?_⟩, ?_, ?_⟩
  · rw [effects]
    exact sound.ordered.snoc follows
  · intro s member
    rw [all, List.mem_append]
    exact (slots s member).imp (sound.slots s) id
  · rw [all]
    exact List.subset_append_left _ _
  · rw [all]
    exact List.subset_append_right _ _

theorem keeps_emit {e : Effect} (follows : ∀ es, known ⊆ declared es → Follows ctx es e)
    (named : ∀ n, .ofValue ctx.script n ∉ e.declares) :
    Keeps ctx known (emit e) fun _ => e.declares := by
  intro f r f' sound has run
  cases run
  refine ⟨sound.emit (follows _ has) rfl ?_ fun s member => .inl member, by simp⟩
  intro n
  rw [declared_append, declared_one, List.mem_append]
  rintro (old | new)
  · exact sound.numbers n old
  · exact absurd new (named n)

theorem keeps_unify {a b : TypeVar} (left : a ∈ known) (right : b ∈ known) :
    Keeps ctx known (unify a b) nothing :=
  keeps_emit (fun _ has => .unify (has left) (has right)) (by simp [Effect.declares])

theorem keeps_unifyAll {pairs : List (TypeVar × TypeVar)}
    (has : ∀ p ∈ pairs, p.1 ∈ known ∧ p.2 ∈ known) : Keeps ctx known (unifyAll pairs) nothing := by
  induction pairs with
  | nil => exact keeps_pure (List.nil_subset _)
  | cons p rest ih =>
    obtain ⟨left, right⟩ := has p (by simp)
    apply keeps_then (keeps_unify left right)
    intro _
    apply ih
    intro q later
    exact has q (List.mem_cons_of_mem _ later)

theorem keeps_unifyAll_zip {as bs : List TypeVar} (left : as ⊆ known) (right : bs ⊆ known) :
    Keeps ctx known (unifyAll (as.zip bs)) nothing := by
  apply keeps_unifyAll
  intro p pair
  obtain ⟨ha, hb⟩ := List.of_mem_zip (show (p.1, p.2) ∈ _ from pair)
  exact ⟨left ha, right hb⟩

theorem keeps_malformed {α : Type} {brings : α → List TypeVar} {cause : Malformation}
    (own : (Failure.malformed ctx.script cause).isOwn) :
    Keeps ctx known (malformed ctx cause : Lift α) brings := keeps_throw own

theorem keeps_imbalance {α : Type} {brings : α → List TypeVar} (cause : Imbalance) :
    Keeps ctx known (imbalance ctx cause : Lift α) brings :=
  keeps_then keeps_get fun _ => keeps_throw rfl

theorem keeps_defect {α : Type} {brings : α → List TypeVar} (d : Defect) :
    Keeps ctx known (defect ctx d : Lift α) brings :=
  keeps_then keeps_get fun _ => keeps_malformed rfl

/-- The number of a nameless value is the next one, so it is new. -/
theorem keeps_nameless {stack : StackType} (pin : Option ValueType)
    (onStack : ∀ t ∈ pin, t.stack = stack) :
    Keeps ctx known (nameless ctx stack pin.toList) fun t => [t] := by
  intro f r f' sound has run
  cases run
  have fresh : .ofValue ctx.script f.nextValue ∉ declared f.effects := fun old =>
    Nat.lt_irrefl _ (sound.numbers _ old)
  refine ⟨sound.emit (.ofValue fresh onStack) rfl ?_ fun s member => .inl member, by simp⟩
  intro n
  rw [declared_append, declared_one, List.mem_append]
  rintro (old | new)
  · exact Nat.lt_succ_of_lt (sound.numbers n old)
  · obtain rfl : n = f.nextValue := by simpa [Effect.declares] using new
    exact Nat.lt_succ_self _

theorem keeps_unpinned (stack : StackType) :
    Keeps ctx known (nameless ctx stack []) fun t => [t] :=
  keeps_nameless none (by simp)

theorem keeps_pinned (p : Prototype) : Keeps ctx known (pinned ctx p) fun t => [t] :=
  keeps_nameless (some p.type) (by simp [Prototype.stack])

theorem keeps_typed (v : Variable) :
    Keeps ctx known (typed v) fun t => [t] ++ [.ofVariable v] :=
  keeps_bind (keeps_emit (fun _ _ => .ofVariable v) (by simp [Effect.declares])) fun _ =>
    keeps_pure (by simp [Effect.declares])

theorem keeps_typedAll (vs : List Variable) :
    Keeps ctx known (vs.mapM typed) fun ts => ts ++ vs.map .ofVariable := by
  have each : ∀ v, Keeps ctx [] (typed v) fun t => [t] ++ [.ofVariable v] := fun v => keeps_typed v
  refine (keeps_mapM each vs).weaken (List.Subset.refl _) fun ts => ?_
  simp only [List.flatMap_singleton', ← List.map_eq_flatMap]
  exact List.subset_append_left _ _

theorem keeps_reference (v : Variable) :
    Keeps ctx known (reference v) fun e => e.typeVars ++ e.typings :=
  keeps_bind (keeps_typed v) fun t => keeps_pure (by simp [Expr.typeVars, Expr.typings])

theorem keeps_push (type : StackType) (constant : Option Value) :
    Keeps ctx known (push ctx type constant) fun s => [slotType ctx s] := by
  intro f r f' sound has run
  cases run
  refine ⟨sound.emit (.ofVariable _) rfl ?_ ?_, by simp⟩
  · intro n
    rw [declared_append, declared_one, List.mem_append]
    rintro (old | new)
    · exact sound.numbers n old
    · simp [Effect.declares, slotType] at new
  · intro s member
    rcases List.mem_cons.1 member with rfl | old
    · exact .inr (by simp [Effect.declares, slotType])
    · exact .inl old

theorem keeps_pushAll (types : List StackType) :
    Keeps ctx known (pushAll ctx types) fun slots => slots.map (slotType ctx) := by
  have each : ∀ t : StackType, Keeps ctx [] (push ctx t none) fun s => [slotType ctx s] ++ [] :=
    fun t => keeps_push t none
  refine (keeps_mapM each types).weaken (List.Subset.refl _) fun slots => ?_
  simp only [← List.map_eq_flatMap]
  grind

theorem Sound.drop (sound : Sound ctx f) {stack : List Slot} (rest : stack ⊆ f.stack) :
    Sound ctx { f with stack := stack } :=
  ⟨sound.ordered, sound.numbers, fun s member => sound.slots s (rest member)⟩

theorem run_get {α : Type} (k : Frame → Lift α) (f : Frame) :
    (get >>= k).run.run f = (k f).run.run f := rfl

theorem run_set {α : Type} (f' : Frame) (k : PUnit → Lift α) (f : Frame) :
    (set f' >>= k).run.run f = (k ⟨⟩).run.run f' := rfl

theorem keeps_pop (type : StackType) :
    Keeps ctx known (pop ctx type) fun s => [slotType ctx s] := by
  intro f r f' sound has run
  have fails : ∀ cause, Keeps ctx known (imbalance ctx cause) fun s => [slotType ctx s] :=
    fun cause => keeps_imbalance cause
  cases stack : f.stack with
  | nil =>
    simp only [pop, run_get, stack] at run
    exact fails _ f r f' sound has run
  | cons s rest =>
    simp only [pop, run_get, stack, run_set] at run
    have less : Sound ctx { f with stack := rest } :=
      sound.drop (stack ▸ List.subset_cons_self s rest)
    have named : [slotType ctx s] ⊆ declared f.effects := by
      have member : s ∈ f.stack := stack ▸ List.mem_cons_self
      simpa using sound.slots s member
    have gives : Keeps ctx [slotType ctx s] (pure s) fun s => [slotType ctx s] :=
      keeps_pure (List.Subset.refl _)
    split at run
    · have last := gives { f with stack := rest } r f' less named run
      exact last
    · have last := fails _ { f with stack := rest } r f' less has run
      exact last

theorem keeps_take {taken rest : Frame → List Slot} (on : ∀ f, taken f ⊆ f.stack)
    (left : ∀ f, rest f ⊆ f.stack) :
    Keeps ctx known (do let f ← get; set { f with stack := rest f }; return taken f)
      fun slots => slots.map (slotType ctx) := by
  intro f r f' sound has run
  simp only [run_get, run_set] at run
  have less : Sound ctx { f with stack := rest f } := sound.drop (left f)
  have named : (taken f).map (slotType ctx) ⊆ declared f.effects := by
    intro t member
    obtain ⟨s, taken, rfl⟩ := List.mem_map.1 member
    exact sound.slots s (on f taken)
  have gives : Keeps ctx ((taken f).map (slotType ctx)) (pure (taken f)) fun slots =>
      slots.map (slotType ctx) := keeps_pure (List.Subset.refl _)
  have last := gives { f with stack := rest f } r f' less named run
  exact last

theorem keeps_popAll : Keeps ctx known popAll fun slots => slots.map (slotType ctx) :=
  keeps_take (fun _ _ member => List.mem_reverse.1 member) fun _ => List.nil_subset _

theorem keeps_popMany (count : Nat) :
    Keeps ctx known (popMany ctx count) fun slots => slots.map (slotType ctx) := by
  intro f r f' sound has run
  have fails : ∀ cause, Keeps ctx known (imbalance ctx cause) fun slots : List Slot =>
      slots.map (slotType ctx) := fun cause => keeps_imbalance cause
  have on : ∀ f : Frame, (f.stack.take count).reverse ⊆ f.stack := fun _ _ member =>
    List.mem_of_mem_take (List.mem_reverse.1 member)
  have left : ∀ f : Frame, f.stack.drop count ⊆ f.stack := fun _ _ member =>
    List.mem_of_mem_drop member
  simp only [popMany, run_get] at run
  split at run
  · exact fails _ f r f' sound has run
  · exact keeps_take on left f r f' sound has run

theorem keeps_popStrings (count : Nat) :
    Keeps ctx known (popStrings ctx count) fun slots => slots.map (slotType ctx) := by
  induction count generalizing known with
  | zero => exact keeps_pure (List.nil_subset _)
  | succ n ih =>
    apply keeps_bind (keeps_pop _)
    intro top
    apply keeps_bind ih
    intro slots
    apply keeps_pure
    simp only [List.map_append, List.map_cons, List.map_nil]
    grind

theorem keeps_popAs (p : Prototype) : Keeps ctx known (popAs ctx p) Expr.typeVars := by
  apply keeps_bind (keeps_pop _)
  intro slot
  apply keeps_bind (keeps_pinned p)
  intro typing
  refine keeps_then (keeps_unify ?_ ?_) fun _ => keeps_pure ?_
  · simp
  · simp
  · simp [slotExpr, Expr.typeVars]

theorem keeps_popConstant (type : StackType) : Keeps ctx known (popConstant ctx type) nothing := by
  apply keeps_bind (keeps_pop type)
  intro slot
  split
  · exact keeps_pure (List.nil_subset _)
  · exact keeps_defect _

theorem keeps_popInt : Keeps ctx known (popInt ctx) nothing := by
  apply keeps_then (keeps_popConstant .int)
  intro value
  split
  · exact keeps_pure (List.nil_subset _)
  · exact keeps_defect _

theorem keeps_popText : Keeps ctx known (popText ctx) nothing := by
  apply keeps_then (keeps_popConstant .string)
  intro value
  split
  · exact keeps_pure (List.nil_subset _)
  · exact keeps_defect _

theorem keeps_peek (depth : Nat) : Keeps ctx known (peek depth) nothing :=
  keeps_then keeps_get fun _ => keeps_pure (List.nil_subset _)

theorem keeps_peekInt (depth : Nat) : Keeps ctx known (peekInt ctx depth) nothing := by
  apply keeps_then (keeps_peek depth)
  intro value
  split
  · exact keeps_pure (List.nil_subset _)
  · exact keeps_defect _

theorem keeps_operand : Keeps ctx known (operand ctx) nothing := by
  apply keeps_then keeps_get
  intro f
  split
  · exact keeps_pure (List.nil_subset _)
  · exact keeps_defect _

theorem keeps_intOperand : Keeps ctx known (intOperand ctx) nothing := by
  apply keeps_then keeps_operand
  intro value
  split
  · exact keeps_pure (List.nil_subset _)
  · exact keeps_defect _

theorem keeps_jump (offset : Int32) : Keeps ctx known (jump ctx offset) nothing := by
  apply keeps_then keeps_get
  intro f
  simp only
  split
  · exact keeps_pure (List.nil_subset _)
  · exact keeps_defect _

theorem keeps_define (opcode : Opcode) {arguments : List Expr} (type : StackType) {typing : TypeVar}
    (has : Expr.typeVarsAll arguments ⊆ known) (typed : typing ∈ known) :
    Keeps ctx known (define ctx opcode arguments type typing) Instruction.typeVars := by
  apply keeps_bind (keeps_push type none)
  intro slot
  refine keeps_then (keeps_unify (by simp) (by simp [typed])) fun _ => ?_
  apply keeps_pure
  simp [Instruction.typeVars, Expr.typeVarsAll, Expr.typeVars, slotExpr, typed]
  grind

end ClientScript.Lift
