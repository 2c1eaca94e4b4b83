import ClientScript.Proofs.Interpretation.Stepwise
import ClientScript.Proofs.Lift.Reach

/-!
Recorded calls. At each moment of a run the calls recorded of a script are those of a part of its
effects, distinct and in the order of their first occurrence; what it performs again behind an
interpretation that was cut short adds nothing. Main statement: the calls recorded of a function
that is kept are those in its code.
-/
namespace ClientScript

def Format.trigger : Format → Trigger
  | .current => .proc
  | .legacy => .clientScript

theorem callsBy_ofFormat (format : Format) : Lift.CallsBy (.ofFormat format) format.trigger := by
  have rules : ∀ r ∈ (Table.ofFormat format).rules, ∀ trigger ∈ r.2.trigger?,
      trigger = format.trigger := by
    cases format <;> decide +kernel
  intro opcode c found
  obtain ⟨r, among, rfl⟩ := Option.map_eq_some_iff.1 found
  exact rules r (List.mem_of_find?_eq_some among)

def distinctCalls (id : Int32) (calls : List (Int32 × Trigger)) : List Call :=
  calls.eraseDups.map fun c => ⟨id, c.1, c.2⟩

theorem mem_distinctCalls {id : Int32} {calls : List (Int32 × Trigger)} {callee : Int32}
    {trigger : Trigger} :
    ⟨id, callee, trigger⟩ ∈ distinctCalls id calls ↔ (callee, trigger) ∈ calls := by
  simp [distinctCalls, List.mem_eraseDups]

theorem distinctCalls_snoc (id : Int32) (calls : List (Int32 × Trigger)) (callee : Int32)
    (trigger : Trigger) : distinctCalls id (calls ++ [(callee, trigger)]) =
      if (callee, trigger) ∈ calls then distinctCalls id calls
      else distinctCalls id calls ++ [⟨id, callee, trigger⟩] := by
  rw [distinctCalls, eraseDups_concat]
  split
  · rfl
  · rw [List.map_append]
    rfl

namespace Setting

variable {g : Setting} {m m' : Moment} {stack : List Pending} {s s' : Stores} {id : Int32}
  {e : Effect} {es before rest : List Effect}

abbrev edges (es : List Effect) : List (Int32 × Trigger) := es.filterMap Effect.edge?

/-- A part of the effects of a script has been performed at some time: at least what the script
    has performed where it is in progress, and all if a function is kept. -/
structure Recorded (g : Setting) (m : Moment) (id : Int32) (es : List Effect) : Prop where
  within : es <+: g.effectsOf id
  calls : m.stores.calls.callsFrom id = distinctCalls id (edges es)
  pending : ∀ p ∈ m.stack, p.script = id →
    ∃ before, g.effectsOf id = before ++ p.rest ∧ before <+: es
  kept : ∀ f, m.stores.results.get? id = some (.ok f) →
    g.resultOf id = .ok f ∧ es = g.effectsOf id

theorem prefix_snoc_or (within : es <+: before ++ e :: rest) (done : before <+: es) :
    before ++ [e] <+: es ∨ es = before := by
  obtain ⟨more, rfl⟩ := done
  cases more with
  | nil => exact .inr (List.append_nil _)
  | cons e' more =>
    obtain ⟨rfl, -⟩ := List.cons_prefix_cons.1 ((List.prefix_append_right_inj before).1 within)
    exact .inl ⟨more, by simp⟩

theorem callsFrom_performHere (script : Int32) (s : Stores) (e : Effect) (id : Int32) :
    (performHere script s e).2.calls.callsFrom id = match e.edge? with
      | some (callee, trigger) => (s.calls.record ⟨script, callee, trigger⟩).2.callsFrom id
      | none => s.calls.callsFrom id := by
  cases e with
  | record | enter | declare | results => rfl
  | unify a b =>
    simp only [performHere, Stores.perform, Stores.unify, Effect.edge?]
    split <;> rfl
  | freeze t pin =>
    simp only [performHere, Stores.perform, Stores.freeze, Effect.edge?]
    split <;> rfl

/-- Behind the next effect the calls recorded are those of a part that contains it. -/
theorem exists_performed (within : es <+: g.effectsOf id)
    (split : g.effectsOf id = before ++ e :: rest) (done : before <+: es)
    (recorded : s.calls.callsFrom id = distinctCalls id (edges es)) : ∃ es',
      es <+: es' ∧ es' <+: g.effectsOf id ∧ before ++ [e] <+: es' ∧
        (performHere id s e).2.calls.callsFrom id = distinctCalls id (edges es') := by
  rw [callsFrom_performHere]
  rcases prefix_snoc_or (split ▸ within) done with again | rfl
  · refine ⟨es, List.prefix_refl es, within, again, ?_⟩
    cases edge : e.edge? with
    | none => exact recorded
    | some call =>
      have among : call ∈ edges es := List.mem_filterMap.2 ⟨e, again.subset (by simp), edge⟩
      simp [CallGraph.callsFrom_record, recorded, mem_distinctCalls, among]
  · refine ⟨es ++ [e], List.prefix_append .., ⟨rest, by simp [split]⟩, List.prefix_refl _, ?_⟩
    cases edge : e.edge? with
    | none => simpa [edges, edge] using recorded
    | some call =>
      have last : edges (es ++ [e]) = edges es ++ [(call.1, call.2)] := by simp [edges, edge]
      simp only [CallGraph.callsFrom_record, last, distinctCalls_snoc, recorded,
        mem_distinctCalls, true_and, ite_not]

def RecordsAll (g : Setting) (m : Moment) : Prop := ∀ id, ∃ es, g.Recorded m id es

variable {a a' : Option (Int32 × Except Failure Function)} {p : Pending}
  {r : Except Failure Function}

theorem recordsAll_answer (h : g.RecordsAll ⟨stack, s, a⟩) : g.RecordsAll ⟨stack, s, a'⟩ := by
  intro id
  obtain ⟨es, recorded⟩ := h id
  exact ⟨es, recorded.within, recorded.calls, recorded.pending, recorded.kept⟩

theorem recordsAll_performed (h : g.RecordsAll ⟨⟨id, e :: rest⟩ :: stack, s, a⟩)
    (results : s'.results = s.results) (calls : s'.calls = (performHere id s e).2.calls) :
    g.RecordsAll ⟨⟨id, rest⟩ :: stack, s', a'⟩ := by
  intro x
  obtain ⟨es, recorded⟩ := h x
  by_cases same : x = id
  · subst same
    obtain ⟨before, split, done⟩ := recorded.pending _ (List.mem_cons_self ..) rfl
    obtain ⟨es', more, within, performed, recorded'⟩ :=
      exists_performed recorded.within split done recorded.calls
    refine ⟨es', within, calls ▸ recorded', ?_, ?_⟩
    · intro p among own
      rcases List.mem_cons.1 among with rfl | outer
      · exact ⟨before ++ [e], by simp [split], performed⟩
      · obtain ⟨before', split', done'⟩ := recorded.pending p (List.mem_cons_of_mem _ outer) own
        exact ⟨before', split', done'.trans more⟩
    · intro f kept
      obtain ⟨gives, all⟩ := recorded.kept f (results ▸ kept)
      exact ⟨gives, within.eq_of_length_le (all ▸ more.length_le)⟩
  · refine ⟨es, recorded.within, ?_, ?_, fun f kept => recorded.kept f (results ▸ kept)⟩
    · change s'.calls.callsFrom x = _
      rw [calls, callsFrom_performHere, ← recorded.calls]
      cases e.edge? with
      | none => rfl
      | some call => simp [CallGraph.callsFrom_record, Ne.symm same]
    · intro p among own
      rcases List.mem_cons.1 among with rfl | outer
      · exact absurd own.symm same
      · exact recorded.pending p (List.mem_cons_of_mem _ outer) own

theorem calls_keep (s : Stores) (id : Int32) (r : Except Failure Function) :
    (s.keep id r).calls = s.calls := by
  unfold Stores.keep
  split
  · split <;> rfl
  · rfl

theorem recordsAll_leave (h : g.RecordsAll ⟨p :: stack, s, a⟩)
    (finished : ∀ f, r = .ok f → g.resultOf p.script = .ok f ∧ p.rest = []) :
    g.RecordsAll (leave p.script r stack s) := by
  intro x
  obtain ⟨es, recorded⟩ := h x
  refine ⟨es, recorded.within, ?_, fun q among => recorded.pending q (List.mem_cons_of_mem _ among),
    ?_⟩
  · change (s.keep p.script r).calls.callsFrom x = _
    rw [calls_keep]
    exact recorded.calls
  · intro f kept
    rcases Stores.of_get?_keep kept with before | ⟨rfl, ok⟩
    · exact recorded.kept f before
    · obtain ⟨gives, none⟩ := finished f ok.symm
      obtain ⟨before, split, done⟩ := recorded.pending p (List.mem_cons_self ..) rfl
      rw [none, List.append_nil] at split
      exact ⟨gives, recorded.within.eq_of_length_le (split ▸ done.length_le)⟩

theorem recordsAll_goOn {outcome : Except Failure Unit × Stores}
    (h : g.RecordsAll ⟨p :: stack, outcome.2, none⟩) : g.RecordsAll (goOn p stack outcome) := by
  obtain ⟨e | u, s'⟩ := outcome
  · exact recordsAll_leave h (by simp)
  · exact h

theorem recordsAll_ask (h : g.RecordsAll ⟨stack, s, a⟩) (id : Int32) :
    g.RecordsAll (g.ask id stack s) := by
  unfold ask
  split
  · exact recordsAll_answer h
  · split
    · exact recordsAll_answer h
    · split
      · intro x
        obtain ⟨es, recorded⟩ := h x
        refine ⟨es, recorded.within, ?_, ?_, recorded.kept⟩
        · exact (CallGraph.callsFrom_mention ..).trans recorded.calls
        · intro p among own
          rcases List.mem_cons.1 among with rfl | outer
          · exact ⟨[], by rw [← own]; rfl, List.nil_prefix⟩
          · exact recorded.pending p outer own
      · exact recordsAll_answer h

theorem recordsAll_moves (h : g.RecordsAll m) (moves : g.Moves m m') : g.RecordsAll m' := by
  cases moves with
  | idle => exact h
  | take p stack s callee r => exact recordsAll_goOn (recordsAll_answer h)
  | done id stack s => exact recordsAll_leave h fun f ok => ⟨ok, rfl⟩
  | skip id callee rest stack s => exact recordsAll_performed h rfl rfl
  | enter id callee rest stack s other =>
    have counted : g.RecordsAll ⟨⟨id, rest⟩ :: stack, s, none⟩ := recordsAll_performed h rfl rfl
    exact recordsAll_ask counted callee
  | perform id e rest stack s quiet =>
    exact recordsAll_goOn (recordsAll_performed h (results_perform_of_ne quiet ..) rfl)

theorem recordsAll_next (h : g.RecordsAll m) (next : g.Next m m') : g.RecordsAll m' := by
  cases next with
  | step => exact recordsAll_moves h (g.moves_step m)
  | ask id idle =>
    obtain ⟨stack, s, a⟩ := m
    obtain rfl : stack = [] := idle
    exact recordsAll_ask h id

theorem recordsAll_of_moments (h : g.Moments m) : g.RecordsAll m := by
  induction h with
  | refl =>
    refine fun id => ⟨[], List.nil_prefix, rfl, by simp, ?_⟩
    simp [Stores.start, IntMap.get?_empty]
  | tail _ next ih => exact recordsAll_next ih next

theorem lifts_of_resultOf {f : Function} (gives : g.resultOf id = .ok f) : g.Lifts id f := by
  unfold resultOf at gives
  split at gives
  · rename_i code found
    exact ⟨code, found, gives⟩
  · simp at gives

theorem script_of_lifts {f : Function} (lifts : g.Lifts id f) : f.script = id := by
  obtain ⟨code, -, lifted⟩ := lifts
  rcases run : (Lift.function (g.context id code) g.table).run.run Frame.start with ⟨result, frame⟩
  rw [Context.lift, run] at lifted
  obtain rfl : result = .ok f := lifted
  exact (Lift.gives_function _ _ _ _ _ run).1

/-- The calls recorded of a function that is kept are those in its code, each once and in the order
    of first occurrence: calls by the trigger of the format, and handlers as client scripts. -/
theorem callsFrom_eq_requests (scripts : Corpus) (declarations : Declarations) (config : Config)
    (turns : List Turn) (id : Int32) (f : Function)
    (kept : (FunctionSet.ofStores
      ((Setting.of scripts declarations config).run turns)).functions.get? id = some f) :
    f.script = id ∧ ((Setting.of scripts declarations config).run turns).calls.callsFrom f.script =
      (f.requests config.format.trigger).eraseDups.map fun c => ⟨f.script, c.1, c.2⟩ := by
  obtain ⟨a, moments⟩ := moments_run (Setting.of scripts declarations config) turns
  obtain ⟨es, recorded⟩ := recordsAll_of_moments moments id
  obtain ⟨gives, rfl⟩ := recorded.kept f (FunctionSet.functions_ofStores.1 kept)
  have lifts := lifts_of_resultOf gives
  have named := script_of_lifts lifts
  obtain ⟨code, found, lifted⟩ := lifts
  refine ⟨named, ?_⟩
  have inCode := (Context.lift_reaches _ _).2 f _ lifted (callsBy_ofFormat config.format)
  rw [named, ← inCode, ← effectsOf_eq found]
  exact recorded.calls

end Setting

namespace Sample

/-- Script 0 calls script 1 twice with a call of script 2 between, and sets a hook to script 1 and
    another one to none. Only one script may be in progress. -/
def dispatching : Setting :=
  .of (((IntMap.insert .empty 0 (.ofLines [.op .gosubWithParams (.int 1),
      .op .gosubWithParams (.int 2), .op .gosubWithParams (.int 1), .pushInt 1, .pushString "",
      .op .ccSetOnClick (.int 0), .pushInt (-1), .pushString "", .op .ccSetOnClick (.int 0),
      .op .ret (.int 0)])).insert 1 (.ofLines [.op .ret (.int 0)])).insert 2
    (.ofLines [.op .ret (.int 0)])) .none { Config.default with maxCallDepth := 1 }

/-- Script 0 is cut short by the limit until its callees are kept. -/
def dispatchingTurns : List Turn := [.one 0, .one 1, .one 0, .one 2, .one 0]

theorem dispatching_records : ∃ f,
    (FunctionSet.ofStores (dispatching.run dispatchingTurns)).functions.get? 0 = some f ∧
    f.requests .proc = [(1, .proc), (2, .proc), (1, .proc), (1, .clientScript)] ∧
    (dispatching.run dispatchingTurns).calls.callsFrom f.script =
      [⟨f.script, 1, .proc⟩, ⟨f.script, 2, .proc⟩, ⟨f.script, 1, .clientScript⟩] := by
  have inCode : ((FunctionSet.ofStores (dispatching.run dispatchingTurns)).functions.get? 0).map
      (Function.requests .proc) =
        some [(1, .proc), (2, .proc), (1, .proc), (1, .clientScript)] := by
    decide +kernel
  obtain ⟨f, kept, requests⟩ := Option.map_eq_some_iff.1 inCode
  refine ⟨f, kept, requests, ?_⟩
  have recorded := (Setting.callsFrom_eq_requests _ _ _ dispatchingTurns 0 f kept).2
  change _ = ((f.requests .proc).eraseDups.map _ : List Call) at recorded
  rw [requests] at recorded
  exact recorded.trans (by simp [List.eraseDups_cons])

end Sample

end ClientScript
