import ClientScript.Proofs.Lift.Copies

/-!
Names in the effects of a script. Every type variable that a script unifies or freezes it has
declared before, and so it has every type variable in its code. What it declares is the same
whenever it is declared: variables on their own stack, results as the corpus has them, and
nameless values once. All that holds also of a script that fails on the way, up to there; and it
fails for a reason of its own.
-/
namespace ClientScript

/-- A failure of a script itself: not that of a callee, and not for the limit on nested calls. A
    jump past the end is none, for the offset is refused that leads there. -/
def Failure.isOwn : Failure → Bool
  | .calleeFailed .. | .recursionLimit _ | .malformed _ (.jumpPastEnd _) => false
  | _ => true

theorem Failure.isDepthLimit_of_isOwn {e : Failure} (own : e.isOwn) : e.isDepthLimit = false := by
  cases e <;> simp_all [isOwn, isDepthLimit]

def Effect.declares : Effect → List TypeVar
  | .declare t _ _ => [t]
  | .results script types => Lift.resultTypes script types
  | _ => []

def declared (es : List Effect) : List TypeVar := es.flatMap Effect.declares

/-- The effects that a script may ask for behind others. -/
inductive Follows (ctx : Context) (es : List Effect) : Effect → Prop where
  | enter {callee : Int32} (known : (ctx.scripts.get? callee).isSome) :
      Follows ctx es (.enter callee)
  | record (callee : Int32) (trigger : Trigger) : Follows ctx es (.record callee trigger)
  | ofVariable (v : Variable) : Follows ctx es (.declare (.ofVariable v) v.type [])
  | ofValue {n : Nat} {stack : StackType} {pin : Option ValueType}
      (fresh : .ofValue ctx.script n ∉ declared es) (onStack : ∀ t ∈ pin, t.stack = stack) :
      Follows ctx es (.declare (.ofValue ctx.script n) stack pin.toList)
  | results {callee : Int32} {code : Script} (found : ctx.scripts.get? callee = some code) :
      Follows ctx es (.results callee code.returns)
  | unify {a b : TypeVar} (left : a ∈ declared es) (right : b ∈ declared es) :
      Follows ctx es (.unify a b)
  | freeze {t : TypeVar} (known : t ∈ declared es) (pin : ValueType) :
      Follows ctx es (.freeze t pin)

def Scoped (ctx : Context) (es : List Effect) : Prop :=
  ∀ before e after, es = before ++ e :: after → Follows ctx before e

def Function.typeVars (f : Function) : List TypeVar :=
  f.arguments.map .ofVariable ++ f.code.instructions.flatMap Instruction.typeVars

theorem declared_append (es es' : List Effect) :
    declared (es ++ es') = declared es ++ declared es' :=
  List.flatMap_append

theorem declared_one (e : Effect) : declared [e] = e.declares := by
  simp [declared]

theorem scoped_nil (ctx : Context) : Scoped ctx [] := by
  intro before e after split
  simp at split

theorem Scoped.snoc {ctx : Context} {es : List Effect} {e : Effect} (h : Scoped ctx es)
    (follows : Follows ctx es e) : Scoped ctx (es ++ [e]) := by
  intro before e' after split
  rcases List.eq_nil_or_concat after with rfl | ⟨after', last, rfl⟩
  · obtain ⟨rfl, same⟩ := List.append_inj' split rfl
    obtain rfl : e = e' := by simpa using same
    exact follows
  · rw [List.concat_eq_append, ← List.cons_append, ← List.append_assoc] at split
    exact h before e' after' (List.append_inj' split rfl).1

theorem Follows.of_declare {ctx : Context} {es : List Effect} {t : TypeVar} {stack : StackType}
    {types : List ValueType} (h : Follows ctx es (.declare t stack types)) :
    (∃ v, t = .ofVariable v ∧ stack = v.type ∧ types = []) ∨
      ∃ n pin, t = .ofValue ctx.script n ∧ types = Option.toList pin ∧
        (∀ p ∈ pin, p.stack = stack) ∧ t ∉ declared es := by
  cases h with
  | ofVariable v => exact .inl ⟨v, rfl, rfl, rfl⟩
  | ofValue fresh onStack => exact .inr ⟨_, _, rfl, rfl, onStack, fresh⟩

theorem Follows.of_results {ctx : Context} {es : List Effect} {callee : Int32}
    {types : List StackType} (h : Follows ctx es (.results callee types)) :
    ∃ code, ctx.scripts.get? callee = some code ∧ types = code.returns := by
  cases h with
  | results found => exact ⟨_, found, rfl⟩

theorem eq_of_fresh {t : TypeVar} {before before' after after' : List Effect} {e e' : Effect}
    (split : before ++ e :: after = before' ++ e' :: after') (declares : t ∈ e.declares)
    (declares' : t ∈ e'.declares) (fresh : t ∉ declared before) (fresh' : t ∉ declared before') :
    e = e' := by
  have seen : ∀ (es : List Effect) (first : Effect), t ∈ first.declares →
      ∀ more, t ∈ declared (es ++ first :: more) := by
    intro es first member more
    exact List.mem_flatMap.2 ⟨first, by simp, member⟩
  rcases List.append_eq_append_iff.1 split with ⟨more, rfl, tail⟩ | ⟨more, rfl, tail⟩
  · cases more with
    | nil => exact (List.cons.inj tail).1
    | cons first rest =>
      obtain ⟨rfl, -⟩ := List.cons.inj tail
      exact absurd (seen _ _ declares _) fresh'
  · cases more with
    | nil => exact (List.cons.inj tail).1.symm
    | cons first rest =>
      obtain ⟨rfl, -⟩ := List.cons.inj tail
      exact absurd (seen _ _ declares' _) fresh

namespace Expr

theorem typeVarsAll_eq (es : List Expr) : typeVarsAll es = es.flatMap typeVars := by
  induction es with
  | nil => rfl
  | cons e es ih => rw [typeVarsAll, ih, List.flatMap_cons]

theorem typeVarsAll_append (es es' : List Expr) :
    typeVarsAll (es ++ es') = typeVarsAll es ++ typeVarsAll es' := by
  simp [typeVarsAll_eq]

end Expr

namespace Lift

variable (ctx : Context)

theorem typeVarsAll_slots (slots : List Slot) :
    Expr.typeVarsAll (slots.map (slotExpr ctx)) = slots.map (slotType ctx) := by
  induction slots with
  | nil => rfl
  | cons s slots ih => simpa [Expr.typeVarsAll, Expr.typeVars, slotExpr] using ih

/-- A frame in which all is declared that may be asked for. -/
structure Sound (f : Frame) : Prop where
  ordered : Scoped ctx f.effects
  numbers : ∀ n, .ofValue ctx.script n ∈ declared f.effects → n < f.nextValue
  slots : ∀ s ∈ f.stack, slotType ctx s ∈ declared f.effects

structure Later (es : List Effect) (ts : List TypeVar) (f : Frame) : Prop where
  sound : Sound ctx f
  grows : declared es ⊆ declared f.effects
  brings : ts ⊆ declared f.effects

/-- What a result brings; a failure brings nothing. -/
def brought {α : Type} (brings : α → List TypeVar) : Except Failure α → List TypeVar
  | .ok a => brings a
  | .error _ => []

/-- From a sound frame that has the known type variables declared, a lift comes to a sound frame
    that has those declared that it brings, or fails there for a reason of its own. -/
def Keeps {α : Type} (known : List TypeVar) (m : Lift α) (brings : α → List TypeVar) : Prop :=
  ∀ f r f', Sound ctx f → known ⊆ declared f.effects → m.run.run f = (r, f') →
    Later ctx f.effects (brought brings r) f' ∧ ∀ e, r = .error e → e.isOwn

section

variable {ctx}
variable {α β : Type} {m : Lift α} {known known' : List TypeVar}

abbrev nothing {α : Type} (_ : α) : List TypeVar := []

theorem keeps_pure {a : α} {brings : α → List TypeVar} (h : brings a ⊆ known) :
    Keeps ctx known (pure a) brings := by
  intro f r f' sound has run
  cases run
  exact ⟨⟨sound, List.Subset.refl _, List.Subset.trans h has⟩, by simp⟩

theorem keeps_throw {e : Failure} (own : e.isOwn) {brings : α → List TypeVar} :
    Keeps ctx known (throw e : Lift α) brings := by
  intro f r f' sound _ run
  cases run
  refine ⟨⟨sound, List.Subset.refl _, List.nil_subset _⟩, ?_⟩
  rintro _ ⟨⟩
  exact own

theorem keeps_bind_of {P : α → Prop} {k : α → Lift β} {first : α → List TypeVar}
    {brings : β → List TypeVar} (gives : Gives m P) (before : Keeps ctx known m first)
    (next : ∀ a, P a → Keeps ctx (first a ++ known) (k a) brings) :
    Keeps ctx known (m >>= k) brings := by
  intro f r f' sound has run
  rcases first_run : m.run.run f with ⟨result, middle⟩
  obtain ⟨halfway, fails⟩ := before f result middle sound has first_run
  simp only [ExceptT.run_bind, StateT.run_bind, first_run] at run
  cases result with
  | error e =>
    cases run
    refine ⟨⟨halfway.sound, halfway.grows, List.nil_subset _⟩, ?_⟩
    rintro _ ⟨⟩
    exact fails e rfl
  | ok a =>
    have hasNow : first a ++ known ⊆ declared middle.effects :=
      List.append_subset.2 ⟨halfway.brings, List.Subset.trans has halfway.grows⟩
    obtain ⟨last, fails⟩ :=
      next a (gives f a middle first_run) middle r f' halfway.sound hasNow run
    exact ⟨⟨last.sound, List.Subset.trans halfway.grows last.grows, last.brings⟩, fails⟩

theorem keeps_bind {k : α → Lift β} {first : α → List TypeVar} {brings : β → List TypeVar}
    (before : Keeps ctx known m first) (next : ∀ a, Keeps ctx (first a ++ known) (k a) brings) :
    Keeps ctx known (m >>= k) brings :=
  keeps_bind_of (gives_any m) before fun a _ => next a

theorem Keeps.weaken {brings less : α → List TypeVar} (h : Keeps ctx known m brings)
    (has : known ⊆ known') (fewer : ∀ a, less a ⊆ brings a ++ known') :
    Keeps ctx known' m less := by
  intro f r f' sound now run
  obtain ⟨last, fails⟩ := h f r f' sound (List.Subset.trans has now) run
  refine ⟨⟨last.sound, last.grows, ?_⟩, fails⟩
  cases r with
  | error e => exact List.nil_subset _
  | ok a =>
    refine List.Subset.trans (fewer a) ?_
    exact List.append_subset.2 ⟨last.brings, List.Subset.trans now last.grows⟩

theorem keeps_then {k : α → Lift β} {brings : β → List TypeVar} (before : Keeps ctx known m nothing)
    (next : ∀ a, Keeps ctx known (k a) brings) : Keeps ctx known (m >>= k) brings :=
  keeps_bind before next

theorem keeps_get : Keeps ctx known (get : Lift Frame) nothing := by
  intro f r f' sound _ run
  cases run
  exact ⟨⟨sound, List.Subset.refl _, List.nil_subset _⟩, by simp⟩

theorem keeps_mapM {g : β → Lift α} {brings : α → List TypeVar} {names : β → List TypeVar}
    (each : ∀ b, Keeps ctx [] (g b) fun a => brings a ++ names b) (bs : List β) :
    Keeps ctx known (bs.mapM g) fun as => as.flatMap brings ++ bs.flatMap names := by
  induction bs generalizing known with
  | nil => exact keeps_pure (by simp)
  | cons b bs ih =>
    rw [List.mapM_cons]
    refine keeps_bind ((each b).weaken (List.nil_subset _) fun a => List.subset_append_left _ _) ?_
    intro a
    apply keeps_bind ih
    intro as
    apply keeps_pure
    simp only [List.flatMap_cons]
    grind

theorem keeps_forM {g : β → Lift PUnit} {bs : List β}
    (each : ∀ b ∈ bs, Keeps ctx known (g b) nothing) : Keeps ctx known (bs.forM g) nothing := by
  induction bs with
  | nil => exact keeps_pure (List.nil_subset _)
  | cons b bs ih =>
    refine keeps_then (each b (by simp)) fun _ => ih ?_
    intro b' later
    exact each b' (List.mem_cons_of_mem _ later)

end

end Lift

end ClientScript
