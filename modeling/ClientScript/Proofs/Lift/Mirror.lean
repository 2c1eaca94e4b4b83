import ClientScript.Proofs.Interpretation.Effects
import ClientScript.Proofs.Lift.Jumps
import ClientScript.Proofs.Typing.Relaxation

/-!
Lifts side by side. One lift mirrors another if it keeps the same operand stack while what it asks
for says no more: each nameless value of it is read as something the other lift names, or as an
integer of which nothing is said. A lift alone is followed against the facts the other one ends
with; two lifts are followed together by rules, of which putting parts together is the main one.
-/
namespace ClientScript.Lift

open Typing

/-- What the nameless values of a lift are read as, by number. There is nothing to read a value as
    of which nothing is said. -/
abbrev Readings := List (Option TypeVar)

inductive ReadAs (names : Readings) : TypeVar → Option TypeVar → Prop where
  | ofValue (script : Int32) {n : Nat} {x : Option TypeVar} (found : names[n]? = some x) :
      ReadAs names (.ofValue script n) x
  | ofVariable (v : Variable) : ReadAs names (.ofVariable v) (some (.ofVariable v))
  | ofResult (script : Int32) (slot : Nat) :
      ReadAs names (.ofResult script slot) (some (.ofResult script slot))

/-- What effects say, and an integer of which they say nothing. -/
def ground (es : List Effect) : Facts (Option TypeVar) :=
  (factsOf {r | r.2 ∈ es}).withSpare .int

/-- What an effect says is said already once it is read, but for plain types. -/
inductive Backed (F : Facts (Option TypeVar)) (names : Readings) : Effect → Prop where
  | declare {t : TypeVar} {x : Option TypeVar} {stack : StackType} {types : List ValueType}
      (read : ReadAs names t x) (typed : F.typed x stack)
      (pins : ∀ p ∈ types, p ∈ F.held x ∨ p = stack.defaultType) :
      Backed F names (.declare t stack types)
  | results {script : Int32} {types : List StackType}
      (typed : ∀ slot stack, types[slot]? = some stack →
        F.typed (some (.ofResult script slot)) stack) : Backed F names (.results script types)
  | unify {a b : TypeVar} {x y : Option TypeVar} (left : ReadAs names a x)
      (right : ReadAs names b y) (same : F.Same x y) : Backed F names (.unify a b)

/-- A frame has the operand stack of another, and asked for nothing that is not said already. -/
structure Mirrors (ctx : Context) (F : Facts (Option TypeVar)) (names : Readings)
    (f g : Frame) : Prop where
  pc : g.pc = f.pc
  stack : g.stack = f.stack
  nextSlot : g.nextSlot = f.nextSlot
  typed : ∀ s ∈ f.stack, F.typed (some (slotType ctx s)) s.type
  named : names.length = g.nextValue
  backed : ∀ e ∈ g.effects, Backed F names e

section

variable {es es' : List Effect} {F F' : Facts (Option TypeVar)} {names names' : Readings}
variable {ctx : Context} {f g : Frame} {e : Effect} {t u : TypeVar} {x : Option TypeVar}
variable {stack : StackType} {types : List ValueType}

theorem ReadAs.mono (h : ReadAs names t x) (le : names <+: names') : ReadAs names' t x := by
  cases h with
  | ofValue script found =>
    obtain ⟨rest, rfl⟩ := le
    have inside := (List.getElem?_eq_some_iff.1 found).1
    exact .ofValue script ((List.getElem?_append_left inside).trans found)
  | ofVariable v => exact .ofVariable v
  | ofResult script slot => exact .ofResult script slot

theorem Backed.mono (h : Backed F names e) (le : names <+: names') (within : F.Within F') :
    Backed F' names' e := by
  cases h with
  | declare read typed pins =>
    exact .declare (read.mono le) (within.typed _ _ typed) fun p member =>
      (pins p member).imp_left fun held => within.held _ held
  | results typed => exact .results fun slot st found => within.typed _ _ (typed slot st found)
  | unify left right same => exact .unify (left.mono le) (right.mono le) (within.same same)

theorem Mirrors.mono (h : Mirrors ctx F names f g) (within : F.Within F') :
    Mirrors ctx F' names f g :=
  ⟨h.pc, h.stack, h.nextSlot, fun s member => within.typed _ _ (h.typed s member), h.named,
    fun e member => (h.backed e member).mono List.prefix_rfl within⟩

theorem mirrors_start : Mirrors ctx F [] .start .start :=
  ⟨rfl, rfl, rfl, List.forall_mem_nil _, rfl, List.forall_mem_nil _⟩

theorem within_ground (more : es ⊆ es') : (ground es).Within (ground es') :=
  (factsOf_mono fun _ asked => more asked).withSpare .int

theorem typed_ground (asked : .declare t stack types ∈ es) : (ground es).typed (some t) stack :=
  ⟨(0, .declare t stack types), asked, rfl, rfl⟩

theorem held_ground (asked : .declare t stack types ∈ es) {p : ValueType} (pin : p ∈ types) :
    p ∈ (ground es).held (some t) :=
  ⟨some t, .refl _, (0, .declare t stack types), asked, rfl, pin⟩

theorem same_ground (asked : .unify t u ∈ es) : (ground es).Same (some t) (some u) :=
  .rel _ _ ⟨(0, .unify t u), asked, rfl, rfl⟩

end

section

variable {ctx : Context} {f f' : Frame}

theorem comes_emit_iff {e : Effect} {u : Unit} :
    Comes (emit e) f u f' ↔ f' = { f with effects := f.effects ++ [e] } := comes_modify

theorem comes_nameless_iff {stack : StackType} {types : List ValueType} {t : TypeVar} :
    Comes (nameless ctx stack types) f t f' ↔ t = .ofValue ctx.script f.nextValue ∧
      f' = { f with
        nextValue := f.nextValue + 1
        effects := f.effects ++ [.declare t stack types] } := by
  constructor
  · intro h
    cases h
    exact ⟨rfl, rfl⟩
  · rintro ⟨rfl, rfl⟩
    rfl

theorem comes_typed_iff {v : Variable} {t : TypeVar} : Comes (typed v) f t f' ↔
    t = .ofVariable v ∧
      f' = { f with effects := f.effects ++ [.declare (.ofVariable v) v.type []] } := by
  constructor
  · intro h
    cases h
    exact ⟨rfl, rfl⟩
  · rintro ⟨rfl, rfl⟩
    rfl

theorem comes_push_iff {type : StackType} {constant : Option Value} {s : Slot} :
    Comes (push ctx type constant) f s f' ↔ s = ⟨f.nextSlot, type, constant⟩ ∧
      f' = { f with
        stack := s :: f.stack
        nextSlot := f.nextSlot + 1
        effects := f.effects ++ [.declare (slotType ctx s) type []] } := by
  constructor
  · intro h
    cases h
    exact ⟨rfl, rfl⟩
  · rintro ⟨rfl, rfl⟩
    rfl

theorem comes_pop_iff {type : StackType} {s : Slot} : Comes (pop ctx type) f s f' ↔
    s.type = type ∧ ∃ rest, f.stack = s :: rest ∧ f' = { f with stack := rest } := by
  constructor
  · intro h
    have next := comes_get_bind.1 h
    split at next
    · exact absurd next not_comes_imbalance
    · rename_i slot rest stack
      obtain ⟨_, f₂, put, last⟩ := comes_bind.1 next
      obtain rfl := comes_set.1 put
      split at last
      · rename_i same
        obtain ⟨rfl, rfl⟩ := comes_pure.1 last
        exact ⟨same, rest, stack, rfl⟩
      · exact absurd last not_comes_imbalance
  · rintro ⟨same, rest, stack, rfl⟩
    refine comes_get_bind.2 ?_
    simp only [stack]
    refine comes_bind.2 ⟨⟨⟩, _, comes_set.2 rfl, ?_⟩
    rw [if_pos same]
    exact comes_pure.2 ⟨rfl, rfl⟩

theorem comes_popAll_iff {slots : List Slot} : Comes popAll f slots f' ↔
    slots = f.stack.reverse ∧ f' = { f with stack := [] } := by
  constructor
  · intro h
    cases h
    exact ⟨rfl, rfl⟩
  · rintro ⟨rfl, rfl⟩
    rfl

end

section

variable {α β : Type} (ctx : Context) (F : Facts (Option TypeVar)) (names : Readings)

/-- From any mirror of a frame the lift gives something, and comes to a mirror of another. -/
def Serves (m : Lift α) (f f₁ : Frame) (Q : Readings → α → Prop) : Prop :=
  ∀ names₁ g, names <+: names₁ → Mirrors ctx F names₁ f g → ∃ names₂ a g₁,
    names₁ <+: names₂ ∧ Comes m g a g₁ ∧ Mirrors ctx F names₂ f₁ g₁ ∧ Q names₂ a

variable {ctx F names} {f f₁ f₂ : Frame} {m : Lift α} {Q : Readings → α → Prop}

theorem serves_pure {a : α} (h : ∀ names', names <+: names' → Q names' a) :
    Serves ctx F names (pure a) f f Q := by
  intro names₁ g le mirrors
  exact ⟨names₁, a, g, List.prefix_rfl, comes_pure.2 ⟨rfl, rfl⟩, mirrors, h names₁ le⟩

theorem serves_bind {k : α → Lift β} {R : Readings → β → Prop}
    (first : Serves ctx F names m f f₁ Q)
    (later : ∀ names', names <+: names' → ∀ a, Q names' a → Serves ctx F names' (k a) f₁ f₂ R) :
    Serves ctx F names (m >>= k) f f₂ R := by
  intro names₁ g le mirrors
  obtain ⟨names₂, a, g₁, le₁, one, mirrors₁, known⟩ := first names₁ g le mirrors
  obtain ⟨names₃, b, g₂, le₂, two, mirrors₂, known₂⟩ :=
    later names₂ (le.trans le₁) a known names₂ g₁ List.prefix_rfl mirrors₁
  exact ⟨names₃, b, g₂, le₁.trans le₂, comes_bind.2 ⟨a, g₁, one, two⟩, mirrors₂, known₂⟩

theorem Serves.later {names' : Readings} (h : Serves ctx F names m f f₁ Q)
    (le : names <+: names') : Serves ctx F names' m f f₁ Q :=
  fun names₁ g older => h names₁ g (le.trans older)

theorem Serves.imp {R : Readings → α → Prop} (h : Serves ctx F names m f f₁ Q)
    (le : ∀ names' a, Q names' a → R names' a) : Serves ctx F names m f f₁ R := by
  intro names₁ g older mirrors
  obtain ⟨names₂, a, g₁, le₁, comes, mirrors₁, known⟩ := h names₁ g older mirrors
  exact ⟨names₂, a, g₁, le₁, comes, mirrors₁, le _ _ known⟩

theorem Serves.to (h : Serves ctx F names m f f₁ Q) (pc : f₂.pc = f₁.pc)
    (stack : f₂.stack = f₁.stack) (nextSlot : f₂.nextSlot = f₁.nextSlot) :
    Serves ctx F names m f f₂ Q := by
  intro names₁ g le mirrors
  obtain ⟨names₂, a, g₁, le₁, comes, mirrors₁, known⟩ := h names₁ g le mirrors
  refine ⟨names₂, a, g₁, le₁, comes, ⟨?_, ?_, ?_, ?_, mirrors₁.named, mirrors₁.backed⟩, known⟩
  · rw [mirrors₁.pc, pc]
  · rw [mirrors₁.stack, stack]
  · rw [mirrors₁.nextSlot, nextSlot]
  · rw [stack]
    exact mirrors₁.typed

theorem serves_of_typed
    (h : (∀ s ∈ f.stack, F.typed (some (slotType ctx s)) s.type) → Serves ctx F names m f f₁ Q) :
    Serves ctx F names m f f₁ Q :=
  fun names₁ g le mirrors => h mirrors.typed names₁ g le mirrors

theorem serves_of_stays {a : α} (stays : ∀ g : Frame, g.pc = f.pc → Comes m g a g)
    (h : ∀ names', names <+: names' → Q names' a) : Serves ctx F names m f f Q := by
  intro names₁ g le mirrors
  exact ⟨names₁, a, g, List.prefix_rfl, stays g mirrors.pc, mirrors, h names₁ le⟩

theorem serves_emit {e : Effect} (backed : Backed F names e) :
    Serves ctx F names (emit e) f f fun _ _ => True := by
  intro names₁ g le mirrors
  refine ⟨names₁, (), _, List.prefix_rfl, comes_emit_iff.2 rfl,
    ⟨mirrors.pc, mirrors.stack, mirrors.nextSlot, mirrors.typed, mirrors.named, ?_⟩, trivial⟩
  intro e' member
  rcases List.mem_append.1 member with old | new
  · exact mirrors.backed e' old
  · rw [List.mem_singleton.1 new]
    exact backed.mono le (.refl F)

theorem serves_typed {v : Variable} (typed : F.typed (some (.ofVariable v)) v.type) :
    Serves ctx F names (Lift.typed v) f f fun _ t => t = .ofVariable v :=
  serves_bind (serves_emit (.declare (.ofVariable v) typed nofun)) fun _ _ _ _ =>
    serves_pure fun _ _ => rfl

theorem serves_nameless {stack : StackType} {types : List ValueType} (x : Option TypeVar)
    (typed : F.typed x stack) (pins : ∀ p ∈ types, p ∈ F.held x ∨ p = stack.defaultType) :
    Serves ctx F names (nameless ctx stack types) f f fun names' t => ReadAs names' t x := by
  intro names₁ g _ mirrors
  have le : names₁ <+: names₁ ++ [x] := List.prefix_append ..
  have read : ReadAs (names₁ ++ [x]) (.ofValue ctx.script g.nextValue) x :=
    .ofValue _ (by simp [← mirrors.named])
  refine ⟨names₁ ++ [x], _, _, le, comes_nameless_iff.2 ⟨rfl, rfl⟩,
    ⟨mirrors.pc, mirrors.stack, mirrors.nextSlot, mirrors.typed, ?_, ?_⟩, read⟩
  · simp [mirrors.named]
  · intro e member
    rcases List.mem_append.1 member with old | new
    · exact (mirrors.backed e old).mono le (.refl F)
    · rw [List.mem_singleton.1 new]
      exact .declare read typed pins

theorem serves_push (type : StackType) (constant : Option Value)
    (typed : F.typed (some (slotType ctx ⟨f.nextSlot, type, constant⟩)) type) :
    Serves ctx F names (push ctx type constant) f
      { f with stack := ⟨f.nextSlot, type, constant⟩ :: f.stack, nextSlot := f.nextSlot + 1 }
      fun _ s => s = ⟨f.nextSlot, type, constant⟩ := by
  intro names₁ g _ mirrors
  refine ⟨names₁, _, _, List.prefix_rfl, comes_push_iff.2 ⟨rfl, rfl⟩,
    ⟨mirrors.pc, ?_, ?_, ?_, mirrors.named, ?_⟩, ?_⟩
  · simp [mirrors.stack, mirrors.nextSlot]
  · simp [mirrors.nextSlot]
  · exact List.forall_mem_cons.2 ⟨typed, mirrors.typed⟩
  · intro e member
    rcases List.mem_append.1 member with old | new
    · exact mirrors.backed e old
    · rw [List.mem_singleton.1 new, mirrors.nextSlot]
      exact .declare (.ofVariable _) typed nofun
  · rw [mirrors.nextSlot]

theorem serves_pop {s : Slot} {rest : List Slot} (top : f.stack = s :: rest) :
    Serves ctx F names (pop ctx s.type) f { f with stack := rest } fun _ s' => s' = s := by
  intro names₁ g _ mirrors
  refine ⟨names₁, s, _, List.prefix_rfl,
    comes_pop_iff.2 ⟨rfl, rest, mirrors.stack.trans top, rfl⟩,
    ⟨mirrors.pc, rfl, mirrors.nextSlot, ?_, mirrors.named, mirrors.backed⟩, rfl⟩
  intro s' member
  exact mirrors.typed s' (top ▸ List.mem_cons_of_mem _ member)

end

section

variable {α β γ δ : Type} (ctx : Context) (names : Readings)

/-- If the first lift gives something from the frame, so does the second from any mirror, and what
    they give is related. -/
def TracksFrom (f : Frame) (m : Lift α) (m' : Lift β) (R : Readings → α → β → Prop) : Prop :=
  ∀ a f₁, Comes m f a f₁ → ∀ names₁ g, names <+: names₁ →
    Mirrors ctx (ground f.effects) names₁ f g → ∃ names₂ b g₁, names₁ <+: names₂ ∧
      Comes m' g b g₁ ∧ Mirrors ctx (ground f₁.effects) names₂ f₁ g₁ ∧ R names₂ a b

def Tracks (m : Lift α) (m' : Lift β) (R : Readings → α → β → Prop) : Prop :=
  ∀ f, TracksFrom ctx names f m m' R

variable {ctx names} {m : Lift α} {m' : Lift β} {R : Readings → α → β → Prop}

theorem tracksFrom_of_serves {f : Frame} (h : ∀ a f₁, Comes m f a f₁ → f.effects ⊆ f₁.effects ∧
    Serves ctx (ground f₁.effects) names m' f f₁ fun names' b => R names' a b) :
    TracksFrom ctx names f m m' R := by
  intro a f₁ comes names₁ g le mirrors
  obtain ⟨grown, serves⟩ := h a f₁ comes
  exact serves names₁ g le (mirrors.mono (within_ground grown))

theorem tracks_of_serves (h : ∀ f a f₁, Comes m f a f₁ → f.effects ⊆ f₁.effects ∧
    Serves ctx (ground f₁.effects) names m' f f₁ fun names' b => R names' a b) :
    Tracks ctx names m m' R := fun f => tracksFrom_of_serves (h f)

theorem tracks_pure {a : α} {b : β} (h : ∀ names', names <+: names' → R names' a b) :
    Tracks ctx names (pure a) (pure b) R := by
  intro f a' f₁ comes names₁ g le mirrors
  obtain ⟨rfl, rfl⟩ := comes_pure.1 comes
  exact ⟨names₁, b, g, List.prefix_rfl, comes_pure.2 ⟨rfl, rfl⟩, mirrors, h names₁ le⟩

theorem TracksFrom.bind {f : Frame} {k : α → Lift γ} {k' : β → Lift δ}
    {S : Readings → γ → δ → Prop} (first : TracksFrom ctx names f m m' R)
    (later : ∀ names', names <+: names' → ∀ a b, R names' a b →
      Tracks ctx names' (k a) (k' b) S) : TracksFrom ctx names f (m >>= k) (m' >>= k') S := by
  intro c f₂ comes names₁ g le mirrors
  obtain ⟨a, f₁, one, two⟩ := comes_bind.1 comes
  obtain ⟨names₂, b, g₁, le₁, one', mirrors₁, related⟩ := first a f₁ one names₁ g le mirrors
  obtain ⟨names₃, d, g₂, le₂, two', mirrors₂, related₂⟩ :=
    later names₂ (le.trans le₁) a b related f₁ c f₂ two names₂ g₁ List.prefix_rfl mirrors₁
  exact ⟨names₃, d, g₂, le₁.trans le₂, comes_bind.2 ⟨b, g₁, one', two'⟩, mirrors₂, related₂⟩

theorem tracks_bind {k : α → Lift γ} {k' : β → Lift δ} {S : Readings → γ → δ → Prop}
    (first : Tracks ctx names m m' R)
    (later : ∀ names', names <+: names' → ∀ a b, R names' a b →
      Tracks ctx names' (k a) (k' b) S) : Tracks ctx names (m >>= k) (m' >>= k') S :=
  fun f => (first f).bind later

theorem Tracks.later {names' : Readings} (h : Tracks ctx names m m' R) (le : names <+: names') :
    Tracks ctx names' m m' R :=
  fun f a f₁ comes names₁ g older => h f a f₁ comes names₁ g (le.trans older)

theorem Tracks.imp {S : Readings → α → β → Prop} (h : Tracks ctx names m m' R)
    (le : ∀ names' a b, R names' a b → S names' a b) : Tracks ctx names m m' S := by
  intro f a f₁ comes names₁ g older mirrors
  obtain ⟨names₂, b, g₁, le₁, comes', mirrors₁, related⟩ := h f a f₁ comes names₁ g older mirrors
  exact ⟨names₂, b, g₁, le₁, comes', mirrors₁, le _ _ _ related⟩

theorem tracks_same {m m' : Lift α} {k : α → Lift γ} {k' : α → Lift δ}
    {S : Readings → γ → δ → Prop} (first : Tracks ctx names m m' fun _ a b => b = a)
    (later : ∀ names', names <+: names' → ∀ a, Tracks ctx names' (k a) (k' a) S) :
    Tracks ctx names (m >>= k) (m' >>= k') S :=
  tracks_bind first fun names' le a _ same => same ▸ later names' le a

theorem tracks_of_not (never : ∀ {f a f'}, ¬ Comes m f a f') : Tracks ctx names m m' R :=
  fun _ _ _ comes => absurd comes never

theorem tracks_get {k : Frame → Lift α} {k' : Frame → Lift β}
    (later : ∀ f g : Frame, g.pc = f.pc → g.stack = f.stack →
      Tracks ctx names (k f) (k' g) R) : Tracks ctx names (get >>= k) (get >>= k') R := by
  intro f a f₁ comes names₁ g le mirrors
  obtain ⟨names₂, b, g₁, le₁, comes', rest⟩ := later f g mirrors.pc mirrors.stack f a f₁
    (comes_get_bind.1 comes) names₁ g le mirrors
  exact ⟨names₂, b, g₁, le₁, comes_get_bind.2 comes', rest⟩

theorem tracks_seek {pc : Nat} {k : PUnit → Lift α} {k' : PUnit → Lift β}
    (later : ∀ f : Frame, f.pc = pc → TracksFrom ctx names f (k ⟨⟩) (k' ⟨⟩) R) :
    Tracks ctx names (modify (fun f => { f with pc := pc }) >>= k)
      (modify (fun f => { f with pc := pc }) >>= k') R := by
  intro f a f₁ comes names₁ g le mirrors
  obtain ⟨_, f₀, moved, rest⟩ := comes_bind.1 comes
  obtain rfl := comes_modify.1 moved
  have there : Mirrors ctx (ground f.effects) names₁ { f with pc := pc } { g with pc := pc } :=
    ⟨rfl, mirrors.stack, mirrors.nextSlot, mirrors.typed, mirrors.named, mirrors.backed⟩
  obtain ⟨names₂, b, g₁, le₁, comes', later'⟩ :=
    later { f with pc := pc } rfl a f₁ rest names₁ _ le there
  exact ⟨names₂, b, g₁, le₁, comes_bind.2 ⟨⟨⟩, _, comes_modify.2 rfl, comes'⟩, later'⟩

theorem tracks_mapM {ε : Type} {c : ε → Lift α} {c' : ε → Lift β}
    (each : ∀ names e, Tracks ctx names (c e) (c' e) R)
    (persists : ∀ {names names' a b}, names <+: names' → R names a b → R names' a b)
    (es : List ε) : Tracks ctx names (es.mapM c) (es.mapM c') fun names' =>
      List.Forall₂ (R names') := by
  induction es generalizing names with
  | nil => exact tracks_pure fun _ _ => .nil
  | cons e es ih =>
    simp only [List.mapM_cons]
    refine tracks_bind (each names e) fun names₁ _ a b one => ?_
    refine tracks_bind ih fun names₂ le as bs rest => tracks_pure fun names₃ le' => ?_
    exact .cons (persists (le.trans le') one) (rest.imp fun _ _ => persists le')

end

end ClientScript.Lift
