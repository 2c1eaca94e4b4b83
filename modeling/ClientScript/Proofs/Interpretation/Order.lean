import ClientScript.Proofs.Interpretation.Run
import ClientScript.Script.Builder

/-!
Orders of interpretation. Whether a script is entered by a caller, on its own, or found in
progress, in the end all effects of all scripts are done, and the stores show what these effects
say. Main statement: if every script succeeds in one order, every script succeeds in every order,
with the same functions, calls, classes and types.
-/
namespace ClientScript

open Typing

namespace Typings

def sameType (s : Typings) (t u : TypeVar) : Bool :=
  match s.cell? t, s.cell? u with
  | some i, some j => s.sameClass i j
  | _, _ => false

def typeOf? (s : Typings) (t : TypeVar) : Option ValueType := (s.cell? t).map s.resolve

section

variable {F : Facts TypeVar} {s s' : Typings} {t u : TypeVar}

/-- Stores of the same facts have cells for the same things. -/
theorem Describes.cell_of_cell (h : Describes F s.named s) (h' : Describes F s'.named s') {i : Nat}
    (cell : s.named t = some i) : ∃ j, s'.named t = some j := by
  obtain ⟨j, cell', -⟩ := (h'.typed t _).1 (h.typed_of_cell cell)
  exact ⟨j, cell'⟩

theorem Describes.no_cell (h : Describes F s.named s) (h' : Describes F s'.named s')
    (absent : s.named t = none) : s'.named t = none := by
  cases cell : s'.named t with
  | none => rfl
  | some i =>
    obtain ⟨j, other⟩ := h'.cell_of_cell h cell
    simp [absent] at other

theorem Describes.typeOf_eq (h : Describes F s.named s) (h' : Describes F s'.named s')
    (name : t.isName) : s'.typeOf? t = s.typeOf? t := by
  rw [typeOf?, typeOf?, cell?_eq_named name, cell?_eq_named name]
  cases cell : s.named t with
  | none =>
    rw [h.no_cell h' cell]
    rfl
  | some i =>
    obtain ⟨j, cell'⟩ := h.cell_of_cell h' cell
    rw [cell', Option.map_some, Option.map_some, resolve, resolve, h.same_stack h' cell cell',
      h.same_types h' cell cell']

theorem Describes.sameType_eq (h : Describes F s.named s) (h' : Describes F s'.named s')
    (left : t.isName) (right : u.isName) : s'.sameType t u = s.sameType t u := by
  simp only [sameType, cell?_eq_named left, cell?_eq_named right]
  cases ct : s.named t with
  | none => rw [h.no_cell h' ct]
  | some i =>
    obtain ⟨i', ct'⟩ := h.cell_of_cell h' ct
    cases cu : s.named u with
    | none => rw [ct', h.no_cell h' cu]
    | some j =>
      obtain ⟨j', cu'⟩ := h.cell_of_cell h' cu
      rw [ct', cu']
      exact (h.same_classes h' ct ct' cu cu').symm

end

end Typings

namespace Setting

def interpretEach (g : Setting) :
    List Int32 → Stores → List (Int32 × Except Failure Function) × Stores
  | [], s => ([], s)
  | id :: ids, s =>
    let r := g.interpret id s
    let later := g.interpretEach ids r.2
    ((id, r.1) :: later.1, later.2)

section

variable {g : Setting} {done : Set Request} {s : Stores} {ids : List Int32}

theorem map_fst_interpretEach (ids : List Int32) (s : Stores) :
    (g.interpretEach ids s).1.map Prod.fst = ids := by
  induction ids generalizing s with
  | nil => rfl
  | cons id ids ih => simp [interpretEach, ih]

theorem exists_answer {id : Int32} (member : id ∈ ids) (s : Stores) :
    ∃ r, (id, r) ∈ (g.interpretEach ids s).1 := by
  rw [← map_fst_interpretEach (g := g) ids s] at member
  obtain ⟨p, answer, rfl⟩ := List.mem_map.1 member
  exact ⟨p.2, answer⟩

theorem lifts_of_answer (reached : g.Reached s) {id : Int32} {f : Function}
    (answer : (id, .ok f) ∈ (g.interpretEach ids s).1) : g.Lifts id f := by
  induction ids generalizing s with
  | nil => simp [interpretEach] at answer
  | cons first ids ih =>
    rcases List.mem_cons.1 answer with now | later
    · obtain ⟨rfl, given⟩ := Prod.mk.inj now
      exact lifts_of_interpret reached given.symm
    · exact ih (.interpret first reached) later

theorem Lifts.unique {id : Int32} {f f' : Function} (h : g.Lifts id f) (h' : g.Lifts id f') :
    f = f' := by
  obtain ⟨code, found, lifted⟩ := h
  obtain ⟨code', found', lifted'⟩ := h'
  obtain rfl : code = code' := Option.some.inj (found.symm.trans found')
  exact Except.ok.inj (lifted.symm.trans lifted')

theorem interpret_unknown {id : Int32} (unknown : g.scripts.get? id = none) :
    (g.interpret id s).2 = s := by
  unfold interpret
  cases g.config.maxCallDepth with
  | zero =>
    unfold interpretAt
    split <;> rfl
  | succ depth =>
    unfold interpretAt
    split
    · rfl
    · rw [unknown]

theorem advances_interpret (id : Int32) (h : g.Explains done s) :
    g.Advances done s {q | q.1 = id ∧ q.2 ∈ g.effectsOf id}
      ((factsOf g.whole).Consistent ∧ g.Liftable ∧ g.Room g.config.maxCallDepth [] id)
      (g.interpret id s) :=
  advances_interpretAt _ [] id h

theorem room_start (deep : g.scripts.size ≤ g.config.maxCallDepth) {id : Int32}
    (known : (g.scripts.get? id).isSome) : g.Room g.config.maxCallDepth [] id := by
  refine ⟨known, by simp, List.nodup_nil, by simp, ?_⟩
  simpa using deep

theorem done_interpretEach (ids : List Int32) (h : g.Explains done s) :
    ∃ done', done ⊆ done' ∧ g.Explains done' (g.interpretEach ids s).2 ∧
      ∀ id f, (id, .ok f) ∈ (g.interpretEach ids s).1 →
        ∀ e ∈ g.effectsOf id, (id, e) ∈ done' := by
  induction ids generalizing done s with
  | nil => exact ⟨done, subset_rfl, h, by simp [interpretEach]⟩
  | cons first ids ih =>
    obtain ⟨done', more, explains, complete, -⟩ := advances_interpret first h
    obtain ⟨done'', more', explains', complete'⟩ := ih explains
    refine ⟨done'', more.trans more', explains', ?_⟩
    intro id f answer e asked
    rcases List.mem_cons.1 answer with now | later
    · obtain ⟨rfl, given⟩ := Prod.mk.inj now
      exact more' (complete f given.symm ⟨rfl, asked⟩)
    · exact complete' id f later e asked

theorem ok_interpretEach (lifts : g.Liftable) (consistent : (factsOf g.whole).Consistent)
    (deep : g.scripts.size ≤ g.config.maxCallDepth) (h : g.Explains done s) (clean : Clean s)
    {id : Int32} {r : Except Failure Function} (known : (g.scripts.get? id).isSome)
    (answer : (id, r) ∈ (g.interpretEach ids s).1) : ∃ f, r = .ok f := by
  induction ids generalizing done s with
  | nil => simp [interpretEach] at answer
  | cons first ids ih =>
    obtain ⟨done', -, explains, -, safe⟩ := advances_interpret first h
    have clean' : Clean (g.interpret first s).2 := by
      cases found : g.scripts.get? first with
      | none =>
        rw [interpret_unknown found]
        exact clean
      | some code => exact (safe ⟨consistent, lifts, room_start deep (by rw [found]; rfl)⟩ clean).2
    rcases List.mem_cons.1 answer with now | later
    · obtain ⟨rfl, rfl⟩ := Prod.mk.inj now
      exact (safe ⟨consistent, lifts, room_start deep known⟩ clean).1
    · exact ih explains clean' later

theorem explains_start (g : Setting) : g.Explains ∅ .start := by
  refine ⟨Set.empty_subset _, ?_, ?_, ?_⟩
  · rw [factsOf_empty]
    exact Typings.describes_empty fun _ => rfl
  · simp [Stores.start, CallGraph.calls_empty]
  · simp [Stores.start, IntMap.get?_empty]

theorem clean_start : Clean .start := by
  intro script r kept
  simp [Stores.start, IntMap.get?_empty] at kept

theorem explains_whole (all : ∀ id ∈ g.scripts.keys, id ∈ ids)
    (succeed : ∀ id r, (g.scripts.get? id).isSome → (id, r) ∈ (g.interpretEach ids .start).1 →
      ∃ f, r = .ok f) : g.Explains g.whole (g.interpretEach ids .start).2 := by
  obtain ⟨done, -, explains, complete⟩ := done_interpretEach ids (explains_start g)
  have same : g.whole = done := by
    refine Set.Subset.antisymm ?_ explains.within
    rintro ⟨id, e⟩ asked
    obtain ⟨code, -, -, found, -⟩ := follows_of_whole asked
    have known : (g.scripts.get? id).isSome := by
      rw [found]
      rfl
    obtain ⟨r, answer⟩ := exists_answer (g := g) (all id (IntMap.mem_keys_iff.2 known)) .start
    obtain ⟨f, rfl⟩ := succeed id r known answer
    exact complete id f answer e asked
  exact same ▸ explains

theorem typed_of_lifts (h : g.Explains done s) {id : Int32} {f : Function} (lifted : g.Lifts id f)
    (did : ∀ e ∈ g.effectsOf id, (id, e) ∈ done) {t : TypeVar} (member : t ∈ f.typeVars) :
    t.isName ∧ (s.typings.typeOf? t).isSome := by
  obtain ⟨code, found, result⟩ := lifted
  have known := (Context.lift_scoped found g.table).2.1 f result member
  rw [← effectsOf_eq found] at known
  obtain ⟨i, cell, named⟩ := h.cell did known
  constructor
  · exact isName_of_typed h.within (h.describes.typed_of_cell named)
  · rw [Typings.typeOf?, cell]
    rfl

end

/-- If all scripts succeed when they are interpreted in one order, all scripts succeed in every
    order: each has the same function, the scripts have the same calls, and type variables that go
    by a name, which those in the functions do, are in the same classes and have the same types. -/
theorem interpretation_confluent {g : Setting} (deep : g.scripts.size ≤ g.config.maxCallDepth)
    {ids others : List Int32} (all : ∀ id ∈ g.scripts.keys, id ∈ ids)
    (all' : ∀ id ∈ g.scripts.keys, id ∈ others)
    (succeed : ∀ p ∈ (g.interpretEach ids .start).1, p.1 ∈ g.scripts.keys → p.2.isOk) :
    (∀ id ∈ g.scripts.keys, ∃ f, (id, .ok f) ∈ (g.interpretEach ids .start).1 ∧
      (id, .ok f) ∈ (g.interpretEach others .start).1 ∧
      (∀ r, (id, r) ∈ (g.interpretEach others .start).1 → r = .ok f) ∧
      ∀ t ∈ f.typeVars, t.isName ∧ ((g.interpretEach ids .start).2.typings.typeOf? t).isSome) ∧
    (∀ c, c ∈ (g.interpretEach others .start).2.calls.calls ↔
      c ∈ (g.interpretEach ids .start).2.calls.calls) ∧
    (∀ t u, t.isName → u.isName → (g.interpretEach others .start).2.typings.sameType t u =
      (g.interpretEach ids .start).2.typings.sameType t u) ∧
    ∀ t, t.isName → (g.interpretEach others .start).2.typings.typeOf? t =
      (g.interpretEach ids .start).2.typings.typeOf? t := by
  have ok : ∀ id r, (g.scripts.get? id).isSome → (id, r) ∈ (g.interpretEach ids .start).1 →
      ∃ f, r = .ok f := by
    intro id r known answer
    have isOk := succeed _ answer (IntMap.mem_keys_iff.2 known)
    cases r with
    | ok f => exact ⟨f, rfl⟩
    | error e => simp [Except.isOk, Except.toBool] at isOk
  have given : ∀ id, (g.scripts.get? id).isSome →
      ∃ f, (id, .ok f) ∈ (g.interpretEach ids .start).1 := by
    intro id known
    obtain ⟨r, answer⟩ := exists_answer (g := g) (all id (IntMap.mem_keys_iff.2 known)) .start
    obtain ⟨f, rfl⟩ := ok id r known answer
    exact ⟨f, answer⟩
  have lifts : g.Liftable := by
    intro id known
    obtain ⟨f, answer⟩ := given id known
    exact ⟨f, lifts_of_answer .start answer⟩
  have first : g.Explains g.whole (g.interpretEach ids .start).2 := explains_whole all ok
  -- The first order shows that what the scripts say is free of contradiction.
  have again : ∀ id r, (g.scripts.get? id).isSome → (id, r) ∈ (g.interpretEach others .start).1 →
      ∃ f, r = .ok f := fun id r known answer =>
    ok_interpretEach lifts first.describes.consistent deep (explains_start g) clean_start known
      answer
  have second : g.Explains g.whole (g.interpretEach others .start).2 :=
    explains_whole all' again
  refine ⟨?_, ?_, ?_, ?_⟩
  · intro id key
    have known := IntMap.mem_keys_iff.1 key
    obtain ⟨f, answer⟩ := given id known
    have lifted := lifts_of_answer .start answer
    have same : ∀ r, (id, r) ∈ (g.interpretEach others .start).1 → r = .ok f := by
      intro r answer'
      obtain ⟨f', rfl⟩ := again id r known answer'
      rw [lifted.unique (lifts_of_answer .start answer')]
    obtain ⟨r, answer'⟩ := exists_answer (g := g) (all' id key) .start
    obtain rfl := same r answer'
    exact ⟨f, answer, answer', same, fun t member =>
      typed_of_lifts first lifted (fun e asked => asked) member⟩
  · intro c
    rw [second.calls c, first.calls c]
  · intro t u left right
    exact first.describes.sameType_eq second.describes left right
  · intro t name
    exact first.describes.typeOf_eq second.describes name

end Setting

namespace Sample

/-- Script 0 returns what script 1 returns, and script 1 a coordinate or what script 0 returns. -/
def recursing : Setting :=
  .of ((IntMap.insert .empty 0 (.ofLines [.returns [.int], .op .gosubWithParams (.int 1),
      .op .ret (.int 0)])).insert 1
    (.ofLines [.returns [.int], .pushInt 1, .pushInt 2, .jump .branchEquals 5,
      .op .gosubWithParams (.int 0), .op .ret (.int 0), .op .coord (.int 0), .op .ret (.int 0)]))
    .none .default

/-- Script 0 enters script 1 if it comes first, and script 1 enters script 0 otherwise. -/
theorem recursing_confluent :
    (∀ p ∈ (recursing.interpretEach [0, 1] .start).1, p.1 ∈ recursing.scripts.keys → p.2.isOk) ∧
    (∀ c, c ∈ (recursing.interpretEach [1, 0] .start).2.calls.calls ↔
      c ∈ (recursing.interpretEach [0, 1] .start).2.calls.calls) ∧
    (recursing.interpretEach [1, 0] .start).2.typings.sameType (.ofResult 1 0) (.ofResult 0 0) ∧
    (recursing.interpretEach [1, 0] .start).2.typings.typeOf? (.ofResult 0 0) = some .coord := by
  have keys : recursing.scripts.keys = [0, 1] := by decide +kernel
  have oks : (recursing.interpretEach [0, 1] .start).1.all (fun p => p.2.isOk) = true := by
    decide +kernel
  have succeed : ∀ p ∈ (recursing.interpretEach [0, 1] .start).1,
      p.1 ∈ recursing.scripts.keys → p.2.isOk := fun p answer _ => List.all_eq_true.1 oks p answer
  have same := Setting.interpretation_confluent (by decide +kernel) (by simp [keys])
    (show ∀ id ∈ recursing.scripts.keys, id ∈ [1, 0] by simp [keys]) succeed
  refine ⟨succeed, same.2.1, ?_, ?_⟩
  · rw [same.2.2.1 _ _ rfl rfl]
    decide +kernel
  · rw [same.2.2.2 _ rfl]
    decide +kernel

end Sample

end ClientScript
