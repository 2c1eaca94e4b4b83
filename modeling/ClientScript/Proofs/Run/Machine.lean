import ClientScript.Instruction
import Mathlib.Data.List.Basic
import Mathlib.Data.Option.Basic

/-!
Runs. A run shows the statements it executes, the conditions it tests and the expressions it
dispatches on, in order. An oracle answers the decisions by their number, so that what holds for
all oracles holds for all runs. A short-circuit test asks its conditions from the left and stops
when the answer is known. Two machines agree if under every oracle they show the same
beginnings and come to the same ends; copies are not shown.
-/
namespace ClientScript

inductive Event where
  | executes (statement : Instruction)
  | tests (condition : Expr)
  | dispatches (expression : Expr)

structure Oracle where
  holds : Nat → Bool
  value : Nat → Int32

namespace Event

def isDecision : Event → Bool
  | .executes _ => false
  | .tests _ | .dispatches _ => true

def isCopy : Event → Bool
  | .executes i => i.isCopy
  | .tests _ | .dispatches _ => false

def statement? : Event → Option Instruction
  | .executes i => some i
  | .tests _ | .dispatches _ => none

end Event

def decisions (es : List Event) : Nat := es.countP Event.isDecision

def executed (es : List Event) : List Instruction := es.filterMap Event.statement?

def asked (es : List Event) : List Event := es.filter Event.isDecision

/-- The events without copies. -/
def shown (es : List Event) : List Event := es.filter fun e => !e.isCopy

@[simp] theorem decisions_nil : decisions [] = 0 := rfl

@[simp] theorem decisions_append (es fs : List Event) :
    decisions (es ++ fs) = decisions es + decisions fs := List.countP_append

@[simp] theorem shown_append (es fs : List Event) : shown (es ++ fs) = shown es ++ shown fs :=
  List.filter_append ..

@[simp] theorem executed_append (es fs : List Event) :
    executed (es ++ fs) = executed es ++ executed fs := List.filterMap_append

@[simp] theorem asked_append (es fs : List Event) : asked (es ++ fs) = asked es ++ asked fs :=
  List.filter_append ..

@[simp] theorem executed_executes (is : List Instruction) :
    executed (is.map .executes) = is := by
  simp [executed, Event.statement?, Function.comp_def]

@[simp] theorem asked_executes (is : List Instruction) : asked (is.map .executes) = [] := by
  simp [asked, Event.isDecision]

theorem decisions_asked (es : List Event) : decisions (asked es) = decisions es := by
  simp [decisions, asked, List.countP_filter]

theorem shown_eq_asked {es : List Event} (copies : ∀ i ∈ executed es, i.isCopy = true) :
    shown es = asked es := by
  refine List.filter_congr fun e member => ?_
  cases e with
  | executes i =>
    have := copies i (List.mem_filterMap.2 ⟨_, member, rfl⟩)
    simp [Event.isCopy, Event.isDecision, this]
  | tests | dispatches => rfl

theorem decisions_shown (es : List Event) : decisions (shown es) = decisions es := by
  rw [decisions, shown, List.countP_filter]
  congr 1
  funext e
  cases e <;> simp [Event.isDecision, Event.isCopy]

theorem decisions_eq_of_shown_eq {es fs : List Event} (same : shown es = shown fs) :
    decisions es = decisions fs := by
  rw [← decisions_shown es, ← decisions_shown fs, same]

@[simp] theorem decisions_executes (is : List Instruction) :
    decisions (is.map .executes) = 0 := by
  simp [decisions, Event.isDecision, List.countP_eq_zero]

theorem shown_copies {is : List Instruction} (copies : ∀ i ∈ is, i.isCopy = true) :
    shown (is.map .executes) = [] := by
  simp only [shown, List.filter_eq_nil_iff, List.mem_map]
  rintro e ⟨i, member, rfl⟩
  simp [Event.isCopy, copies i member]

def Oracle.evaluate (o : Oracle) (met : Nat) : Expr → Bool × List Event
  | .op opcode [left, right] results typings dot =>
    if opcode = .shortOr then
      let l := o.evaluate met left
      if l.1 then l
      else
        let r := o.evaluate (met + decisions l.2) right
        (r.1, l.2 ++ r.2)
    else if opcode = .shortAnd then
      let l := o.evaluate met left
      if l.1 then
        let r := o.evaluate (met + decisions l.2) right
        (r.1, l.2 ++ r.2)
      else l
    else (o.holds met, [.tests (.op opcode [left, right] results typings dot)])
  | e => (o.holds met, [.tests e])

theorem Oracle.evaluate_asks (o : Oracle) (met : Nat) (e : Expr) :
    asked (o.evaluate met e).2 = (o.evaluate met e).2 ∧ executed (o.evaluate met e).2 = [] := by
  fun_induction Oracle.evaluate o met e with
  | case1 _ _ _ _ _ _ _ _ left => exact left
  | case2 _ _ _ _ _ _ _ _ _ right left | case3 _ _ _ _ _ _ _ _ _ _ right left =>
    rw [asked_append, executed_append, left.1, left.2, right.1, right.2]
    exact ⟨rfl, rfl⟩
  | case4 _ _ _ _ _ _ _ _ _ left => exact left
  | case5 => exact ⟨rfl, rfl⟩
  | case6 => exact ⟨rfl, rfl⟩

theorem Oracle.evaluate_executes_none (o : Oracle) (met : Nat) (e : Expr) (i : Instruction) :
    .executes i ∉ (o.evaluate met e).2 := by
  intro member
  have none := (o.evaluate_asks met e).2
  have among : i ∈ executed (o.evaluate met e).2 := List.mem_filterMap.2 ⟨_, member, rfl⟩
  simp [none] at among

/-- What a machine does in one step from a state, with that many decisions behind it: the events
    and the next state, or none at the end. -/
structure Machine (σ : Type) where
  step : Oracle → Nat → σ → List Event × Option σ

namespace Machine

variable {σ τ υ : Type} (m : Machine σ) (o : Oracle)

def run : (steps : Nat) → (met : Nat) → σ → List Event × Option σ
  | 0, _, s => ([], some s)
  | n + 1, met, s =>
    match m.step o met s with
    | (es, none) => (es, none)
    | (es, some t) =>
      let later := run n (met + decisions es) t
      (es ++ later.1, later.2)

def Begins (s : σ) (es : List Event) : Prop := ∃ n, es <+: shown (m.run o n 0 s).1

def Ends (s : σ) (es : List Event) : Prop :=
  ∃ n, (m.run o n 0 s).2 = none ∧ shown (m.run o n 0 s).1 = es

/-- Under every oracle two machines show the same beginnings and come to the same ends. -/
def Agree (m : Machine σ) (s : σ) (m' : Machine τ) (t : τ) : Prop :=
  ∀ o, (∀ es, m.Begins o s es ↔ m'.Begins o t es) ∧ ∀ es, m.Ends o s es ↔ m'.Ends o t es

theorem Agree.trans {m : Machine σ} {s : σ} {m' : Machine τ} {t : τ} {m'' : Machine υ} {u : υ}
    (h : Agree m s m' t) (k : Agree m' t m'' u) : Agree m s m'' u := by
  intro o
  exact ⟨fun es => ((h o).1 es).trans ((k o).1 es), fun es => ((h o).2 es).trans ((k o).2 es)⟩

variable {m o}

theorem run_one {met : Nat} {s : σ} {es : List Event} {r : Option σ}
    (h : m.step o met s = (es, r)) : m.run o 1 met s = (es, r) := by
  cases r <;> simp [run, h]

theorem run_trans {a b met : Nat} {s t : σ} {es fs : List Event} {r : Option σ}
    (first : m.run o a met s = (es, some t))
    (second : m.run o b (met + decisions es) t = (fs, r)) :
    m.run o (a + b) met s = (es ++ fs, r) := by
  induction a generalizing met s es with
  | zero =>
    simp only [run, Prod.mk.injEq, Option.some.injEq] at first
    obtain ⟨rfl, rfl⟩ := first
    simpa using second
  | succ a ih =>
    rw [Nat.add_right_comm]
    simp only [run] at first ⊢
    split at first
    · simp at first
    · rename_i es₁ t₁ stepped
      simp only [Prod.mk.injEq] at first
      obtain ⟨rfl, rest⟩ := first
      have first' : m.run o a (met + decisions es₁) t₁ =
          ((m.run o a (met + decisions es₁) t₁).1, some t) := by rw [← rest]
      have later := ih first' (by simpa [Nat.add_assoc] using second)
      rw [later]
      simp

theorem run_ended {a met : Nat} {s : σ} {es : List Event} (h : m.run o a met s = (es, none))
    (b : Nat) : m.run o (a + b) met s = (es, none) := by
  induction a generalizing met s es with
  | zero => simp [run] at h
  | succ a ih =>
    rw [Nat.add_right_comm]
    simp only [run] at h ⊢
    split at h
    · simpa using h
    · rename_i es₁ t₁ stepped
      simp only [Prod.mk.injEq] at h
      obtain ⟨rfl, rest⟩ := h
      have later : m.run o a (met + decisions es₁) t₁ =
          ((m.run o a (met + decisions es₁) t₁).1, none) := by rw [← rest]
      rw [ih later]

/-- More steps only add events, and none once the run has ended. -/
theorem run_prefix (m : Machine σ) (o : Oracle) (a b met : Nat) (s : σ) :
    (m.run o a met s).1 <+: (m.run o (a + b) met s).1 := by
  obtain ⟨es, r, h⟩ : ∃ es r, m.run o a met s = (es, r) := ⟨_, _, rfl⟩
  rw [h]
  cases r with
  | none => simp [run_ended h b]
  | some t => simp [run_trans h rfl]

theorem ended_unique {a b met : Nat} {s : σ} {es fs : List Event}
    (first : m.run o a met s = (es, none)) (second : m.run o b met s = (fs, none)) : es = fs := by
  have twice := run_ended first b
  rw [Nat.add_comm, run_ended second a, Prod.mk.injEq] at twice
  exact twice.1.symm

theorem prefix_of_ends {s : σ} {es fs : List Event} (begins : m.Begins o s es)
    (ends : m.Ends o s fs) : es <+: fs := by
  obtain ⟨n, first⟩ := begins
  obtain ⟨a, ended, rfl⟩ := ends
  have further := run_prefix m o n a 0 s
  rw [Nat.add_comm, run_ended (Prod.ext rfl ended) n] at further
  exact first.trans (further.filter _)

/-- Both machines go at least one step, show the same, and come to related states or end with the
    very same events. -/
def Round (m : Machine σ) (m' : Machine τ) (R : σ → τ → Prop) (o : Oracle) (met : Nat) (s : σ)
    (t : τ) : Prop :=
  ∃ a b es fs r r', m.run o (a + 1) met s = (es, r) ∧ m'.run o (b + 1) met t = (fs, r') ∧
    shown es = shown fs ∧ Option.Rel R r r' ∧ (r = none → es = fs)

def Rounds (m : Machine σ) (m' : Machine τ) (R : σ → τ → Prop) : Prop :=
  ∀ o met s t, R s t → Round m m' R o met s t

theorem Rounds.flip {m : Machine σ} {m' : Machine τ} {R : σ → τ → Prop} (h : Rounds m m' R) :
    Rounds m' m (fun t s => R s t) := by
  intro o met t s related
  obtain ⟨a, b, es, fs, r, r', ha, hb, same, ends, alike⟩ := h o met s t related
  refine ⟨b, a, fs, es, r', r, hb, ha, same.symm, ?_, ?_⟩
  · cases ends with
    | none => exact .none
    | some h => exact .some h
  · rintro rfl
    cases ends
    exact (alike rfl).symm

/-- Rounds add up to runs of any length. -/
theorem Rounds.repeat {m : Machine σ} {m' : Machine τ} {R : σ → τ → Prop} (h : Rounds m m' R)
    (o : Oracle) (met : Nat) {s : σ} {t : τ} (related : R s t) (n : Nat) :
    ∃ a b es fs r r', m.run o a met s = (es, r) ∧ m'.run o b met t = (fs, r') ∧
      shown es = shown fs ∧ Option.Rel R r r' ∧ (r = none ∨ n ≤ a) := by
  induction n with
  | zero => exact ⟨0, 0, [], [], some s, some t, rfl, rfl, rfl, .some related, .inr (by simp)⟩
  | succ n ih =>
    obtain ⟨a, b, es, fs, r, r', ha, hb, same, ends, far⟩ := ih
    cases ends with
    | none => exact ⟨a, b, es, fs, none, none, ha, hb, same, .none, .inl rfl⟩
    | @some s₁ t₁ related₁ =>
      obtain ⟨a₁, b₁, es₁, fs₁, r₁, r₁', ha₁, hb₁, same₁, ends₁, -⟩ :=
        h o (met + decisions es) s₁ t₁ related₁
      rw [decisions_eq_of_shown_eq same] at hb₁
      refine ⟨_, _, _, _, r₁, r₁', run_trans ha ha₁, run_trans hb hb₁, ?_, ends₁, .inr ?_⟩
      · simp [same, same₁]
      · simp only [reduceCtorEq, false_or] at far
        omega

theorem Rounds.begins {m : Machine σ} {m' : Machine τ} {R : σ → τ → Prop} (h : Rounds m m' R)
    {o : Oracle} {s : σ} {t : τ} (related : R s t) {es : List Event} (shows : m.Begins o s es) :
    m'.Begins o t es := by
  obtain ⟨n, first⟩ := shows
  obtain ⟨a, b, es₁, fs₁, r, r', ha, hb, same, -, far⟩ := h.repeat o 0 related n
  refine ⟨b, ?_⟩
  rw [hb, ← same]
  refine first.trans ?_
  rcases far with rfl | far
  · have further := run_prefix m o n a 0 s
    rw [Nat.add_comm, run_ended ha n] at further
    exact further.filter _
  · obtain ⟨c, rfl⟩ := Nat.exists_eq_add_of_le far
    have further := run_prefix m o n c 0 s
    rw [ha] at further
    exact further.filter _

theorem Rounds.ends {m : Machine σ} {m' : Machine τ} {R : σ → τ → Prop} (h : Rounds m m' R)
    {o : Oracle} {s : σ} {t : τ} (related : R s t) {es : List Event} (shows : m.Ends o s es) :
    m'.Ends o t es := by
  obtain ⟨n, ended, rfl⟩ := shows
  obtain ⟨fs, r, hn⟩ : ∃ fs r, m.run o n 0 s = (fs, r) := ⟨_, _, rfl⟩
  rw [hn] at ended ⊢
  subst ended
  obtain ⟨a, b, es₁, fs₁, r, r', ha, hb, same, ends, far⟩ := h.repeat o 0 related n
  have finished : r = none ∧ es₁ = fs := by
    rcases far with rfl | far
    · exact ⟨rfl, ended_unique ha hn⟩
    · obtain ⟨c, rfl⟩ := Nat.exists_eq_add_of_le far
      rw [run_ended hn c] at ha
      simp only [Prod.mk.injEq] at ha
      exact ⟨ha.2.symm, ha.1.symm⟩
  obtain ⟨rfl, rfl⟩ := finished
  cases ends
  exact ⟨b, by rw [hb], by rw [hb]; exact same.symm⟩

theorem Rounds.ends_alike {m : Machine σ} {m' : Machine τ} {R : σ → τ → Prop} (h : Rounds m m' R)
    {o : Oracle} {n met : Nat} {s : σ} {t : τ} {es : List Event} (related : R s t)
    (ended : m.run o n met s = (es, none)) :
    ∃ b fs, m'.run o b met t = (fs, none) ∧ shown es = shown fs ∧
      ∃ a met₁ s₁ t₁ last, R s₁ t₁ ∧ m.run o (a + 1) met₁ s₁ = (last, none) ∧ last <:+ fs := by
  induction n using Nat.strongRecOn generalizing met s t es with
  | ind n ih =>
    obtain ⟨a, b, es₁, fs₁, r, r', ha, hb, same, ends, alike⟩ := h o met s t related
    cases ends with
    | none =>
      obtain rfl := ended_unique ha ended
      exact ⟨b + 1, fs₁, hb, same, a, met, s, t, es₁, related, ha, alike rfl ▸ List.suffix_refl _⟩
    | @some s₁ t₁ related₁ =>
      have longer : a + 1 ≤ n := by
        by_contra short
        obtain ⟨c, eq⟩ := Nat.exists_eq_add_of_le (Nat.le_of_not_le short)
        rw [eq, run_ended ended c] at ha
        simp at ha
      obtain ⟨n', rfl⟩ := Nat.exists_eq_add_of_le longer
      obtain ⟨es₂, r₂, rest⟩ : ∃ es₂ r₂, m.run o n' (met + decisions es₁) s₁ = (es₂, r₂) :=
        ⟨_, _, rfl⟩
      rw [run_trans ha rest, Prod.mk.injEq] at ended
      obtain ⟨rfl, rfl⟩ := ended
      obtain ⟨b', fs₂, hb', same', a', met', s', t', last, related', ended', suffix⟩ :=
        ih n' (by omega) related₁ rest
      rw [decisions_eq_of_shown_eq same] at hb'
      exact ⟨b + 1 + b', fs₁ ++ fs₂, run_trans hb hb', by simp [same, same'], a', met', s', t',
        last, related', ended', suffix.trans (List.suffix_append ..)⟩

theorem Rounds.agree {m : Machine σ} {m' : Machine τ} {R : σ → τ → Prop} (h : Rounds m m' R)
    {s : σ} {t : τ} (related : R s t) : Agree m s m' t := by
  intro o
  constructor
  · intro es
    exact ⟨h.begins related, h.flip.begins (R := fun t s => R s t) related⟩
  · intro es
    exact ⟨h.ends related, h.flip.ends (R := fun t s => R s t) related⟩

end Machine

end ClientScript
