import ClientScript.Proofs.Lift.MirroredFrames

/-!
Commands side by side. A command that calls no script is tracked by itself: only the numbers of
nameless values differ in what it makes, which no outline shows.
-/
namespace ClientScript.Lift

variable {ctx : Context} {names : Readings}

abbrev Alike (_ : Readings) (i j : Instruction) : Prop := j.outline = i.outline

theorem tracks_switch : Tracks ctx names (switch ctx) (switch ctx) Alike :=
  tracks_same (tracks_pop .int) fun _ _ _ => tracks_same tracks_switchTable fun _ _ table =>
    tracks_same (tracks_caseLabels table.entries) fun _ _ _ => tracks_pure fun _ _ => rfl

theorem tracks_goto : Tracks ctx names (goto ctx) (goto ctx) Alike :=
  tracks_same tracks_intOperand fun _ _ offset => tracks_same (tracks_jump offset) fun _ _ _ =>
    tracks_pure fun _ _ => rfl

theorem tracks_branchCompare (opcode : Opcode) :
    Tracks ctx names (branchCompare ctx opcode) (branchCompare ctx opcode) Alike := by
  refine tracks_same tracks_intOperand fun _ _ offset => ?_
  refine tracks_same (tracks_jump offset) fun _ _ target => ?_
  refine tracks_same (tracks_pop .int) fun _ _ right => ?_
  refine tracks_same (tracks_pop .int) fun _ _ left => ?_
  exact tracks_bind (tracks_unify (readAs_slot left) (readAs_slot right)) fun _ _ _ _ _ =>
    tracks_pure fun _ _ => rfl

theorem tracks_ret : Tracks ctx names (ret ctx) (ret ctx) Alike := by
  refine tracks_same tracks_popAll fun _ _ slots => ?_
  simp only
  split
  · refine tracks_bind (tracks_results _ _) fun names' _ _ _ _ => ?_
    refine tracks_bind (tracks_unifyAll (List.forall₂_same.2 ?_)) fun _ _ _ _ _ =>
      tracks_pure fun _ _ => rfl
    -- a result and the slot it is returned in are read as themselves
    intro p member
    obtain ⟨result, slot⟩ := List.of_mem_zip member
    obtain ⟨n, -, own⟩ := List.mem_map.1 result
    obtain ⟨s, -, own'⟩ := List.mem_map.1 slot
    rw [← own, ← own']
    exact ⟨.ofResult _ n, readAs_slot s⟩
  · exact tracks_of_not not_comes_imbalance

theorem tracks_constant (type : StackType) :
    Tracks ctx names (constant ctx type) (constant ctx type) Alike := by
  refine tracks_same tracks_operand fun _ _ value => ?_
  split
  · refine tracks_bind (tracks_nameless type []) fun _ _ t t' read => ?_
    refine tracks_same (tracks_push type (some value)) fun _ le slot => ?_
    exact tracks_bind (tracks_unify (readAs_slot slot) (read.mono le)) fun _ _ _ _ _ =>
      tracks_pure fun _ _ => rfl
  · exact tracks_defect _

theorem tracks_define (opcode : Opcode) (arguments : List Expr) (type : StackType) {t t' : TypeVar}
    (read : ReadAs names t' (some t)) :
    Tracks ctx names (define ctx opcode arguments type t) (define ctx opcode arguments type t')
      Alike := by
  refine tracks_same (tracks_push type none) fun _ le slot => ?_
  exact tracks_bind (tracks_unify (readAs_slot slot) (read.mono le)) fun _ _ _ _ _ =>
    tracks_pure fun _ _ => rfl

theorem tracks_joinString : Tracks ctx names (joinString ctx) (joinString ctx) Alike := by
  refine tracks_same tracks_intOperand fun _ _ count => ?_
  split
  · exact tracks_of_not not_comes_malformed
  · refine tracks_same (tracks_popStrings _) fun _ _ parts => ?_
    exact tracks_bind (tracks_nameless .string []) fun _ _ _ _ read => tracks_define _ _ _ read

theorem tracks_enumKey (key : Slot) :
    Tracks ctx names (enumKey ctx key) (enumKey ctx key) fun _ e e' => e' = e := by
  refine tracks_same (tracks_typeTag 0) fun _ _ keyType => ?_
  refine tracks_bind (tracks_pinned (.of keyType)) fun _ _ _ _ read => ?_
  exact tracks_bind (tracks_unify (readAs_slot key) read) fun _ _ _ _ _ => tracks_popAs .typeTag

theorem tracks_enum (opcode : Opcode) :
    Tracks ctx names (enum ctx opcode) (enum ctx opcode) Alike := by
  refine tracks_same (tracks_pop .int) fun _ _ key => ?_
  refine tracks_same (tracks_popAs .enum) fun _ _ id => ?_
  refine tracks_same (tracks_typeTag 0) fun _ _ valueType => ?_
  refine tracks_same (tracks_popAs .typeTag) fun _ _ valueTag => ?_
  refine tracks_same (tracks_enumKey key) fun _ _ keyTag => ?_
  exact tracks_bind (tracks_pinned (.of valueType)) fun _ _ _ _ read => tracks_define _ _ _ read

theorem tracks_param (opcode : Opcode) (receiver : Prototype) :
    Tracks ctx names (param ctx opcode receiver) (param ctx opcode receiver) Alike := by
  refine tracks_same (tracks_peekInt 0) fun _ _ id => ?_
  split
  · exact tracks_of_not not_comes_throw
  · rename_i declared _
    refine tracks_same (tracks_popAs .param) fun _ _ key => ?_
    refine tracks_same (tracks_popAs receiver) fun _ _ holder => ?_
    exact tracks_bind (tracks_pinned declared) fun _ _ _ _ read => tracks_define _ _ _ read

theorem tracks_inputs (args : List (Prototype × Source)) :
    Tracks ctx names (inputs ctx args) (inputs ctx args) fun _ found found' => found' = found := by
  induction args generalizing names with
  | nil => exact tracks_pure fun _ _ => rfl
  | cons a args ih =>
    obtain ⟨p, source⟩ := a
    refine tracks_same ih fun _ _ found => ?_
    cases source with
    | stack => exact tracks_same (tracks_pop p.stack) fun _ _ s => tracks_pure fun _ _ => rfl
    | operand | localVar => exact tracks_pure fun _ _ => rfl

/-- Single values of which both or neither are a variable, and then the same. -/
structure Matching (e e' : Expr) : Prop where
  left : e.isSimple
  right : e'.isSimple
  location : e'.location? = e.location?

theorem tracks_argument (value : Value) (p : Prototype) (input : Input) :
    Tracks ctx names (argument ctx value p input) (argument ctx value p input)
      fun _ => Matching := by
  refine tracks_bind (tracks_pinned p) fun _ _ t t' read => ?_
  cases input with
  | slot s =>
    exact tracks_bind (tracks_unify (readAs_slot s) read) fun _ _ _ _ _ =>
      tracks_pure fun _ _ => ⟨rfl, rfl, rfl⟩
  | operand =>
    simp only
    split
    · exact tracks_pure fun _ _ => ⟨rfl, rfl, rfl⟩
    · exact tracks_defect _
  | localVar =>
    refine tracks_same (tracks_operandLocal p.stack) fun _ le v => ?_
    refine tracks_bind (tracks_typed v) ?_
    rintro _ le' _ _ ⟨rfl, rfl⟩
    exact tracks_bind (tracks_unify (.ofVariable v) (read.mono (le.trans le'))) fun _ _ _ _ _ =>
      tracks_pure fun _ _ => ⟨rfl, rfl, rfl⟩

theorem tracks_arguments (value : Value) (found : List (Prototype × Input)) :
    Tracks ctx names (arguments ctx value found) (arguments ctx value found)
      fun _ => List.Forall₂ Matching := by
  induction found generalizing names with
  | nil => exact tracks_pure fun _ _ => .nil
  | cons a found ih =>
    exact tracks_bind (tracks_argument value a.1 a.2) fun _ _ _ _ one => tracks_bind ih
      fun _ _ _ _ rest => tracks_pure fun _ _ => .cons one rest

theorem tracks_result (p : Prototype) (destination : Destination) :
    Tracks ctx names (result ctx p destination) (result ctx p destination)
      fun _ d d' => d' = d ∧ d.2 = .ofVariable d.1 := by
  cases destination with
  | stack =>
    exact tracks_same (tracks_push p.stack none) fun _ _ s => tracks_pure fun _ _ => ⟨rfl, rfl⟩
  | localVar =>
    refine tracks_same (tracks_operandLocal p.stack) fun _ _ v => ?_
    refine tracks_bind (tracks_typed v) ?_
    rintro _ _ _ _ ⟨rfl, rfl⟩
    exact tracks_pure fun _ _ => ⟨rfl, rfl⟩

theorem tracks_definitions (defs : List (Prototype × Destination)) :
    Tracks ctx names (results ctx defs) (results ctx defs)
      fun _ ds ds' => ds' = ds ∧ ∀ d ∈ ds, d.2 = .ofVariable d.1 := by
  induction defs generalizing names with
  | nil => exact tracks_pure fun _ _ => ⟨rfl, nofun⟩
  | cons a defs ih =>
    refine tracks_bind (tracks_result a.1 a.2) ?_
    rintro _ _ d _ ⟨rfl, own⟩
    refine tracks_bind ih ?_
    rintro _ _ ds _ ⟨rfl, owns⟩
    exact tracks_pure fun _ _ => ⟨rfl, List.forall_mem_cons.2 ⟨own, owns⟩⟩

theorem forall₂_zip {α β γ δ : Type} {R : α → β → Prop} {S : γ → δ → Prop} {as : List α}
    {bs : List β} {cs : List γ} {ds : List δ} (first : List.Forall₂ R as bs)
    (second : List.Forall₂ S cs ds) :
    List.Forall₂ (fun p q => R p.1 q.1 ∧ S p.2 q.2) (as.zip cs) (bs.zip ds) := by
  induction first generalizing cs ds with
  | nil => exact .nil
  | cons one _ ih =>
    cases second with
    | nil => exact .nil
    | cons two rest => exact .cons ⟨one, two⟩ (ih rest)

theorem outline_of_matching {es es' : List Expr} (matching : List.Forall₂ Matching es es')
    (opcode : Opcode) (definitions : List Expr) (results : List StackType)
    (typings typings' : List TypeVar) (dot : Bool) :
    (Instruction.assign definitions (.op opcode es' results typings' dot)).outline =
      (Instruction.assign definitions (.op opcode es results typings dot)).outline := by
  have sides : (∀ e ∈ es, e.isSimple) ∧ (∀ e ∈ es', e.isSimple) ∧
      es'.filterMap Expr.location? = es.filterMap Expr.location? := by
    induction matching with
    | nil => exact ⟨nofun, nofun, rfl⟩
    | cons one _ ih =>
      refine ⟨List.forall_mem_cons.2 ⟨one.left, ih.1⟩,
        List.forall_mem_cons.2 ⟨one.right, ih.2.1⟩, ?_⟩
      rw [List.filterMap_cons, List.filterMap_cons, one.location, ih.2.2]
  obtain ⟨left, right, locations⟩ := sides
  rw [Instruction.outline_op left, Instruction.outline_op right, Expr.slots, Expr.slots,
    Expr.slots, locations]

theorem tracks_basic (s : Signature) : Tracks ctx names (basic ctx s) (basic ctx s) Alike := by
  refine tracks_same tracks_operand fun _ _ value => ?_
  split
  · exact tracks_defect _
  refine tracks_same (tracks_inputs s.args) fun _ _ found => ?_
  refine tracks_bind (tracks_arguments value found) fun _ _ args args' matching => ?_
  refine tracks_bind (tracks_mapM (fun _ d => tracks_pinned d.1) (fun le read => read.mono le)
    s.defs) fun _ _ typings typings' read => ?_
  refine tracks_bind (tracks_definitions s.defs) ?_
  rintro names' le _ ds ⟨rfl, owns⟩
  have own : List.Forall₂ (fun t t' => ReadAs names' t' (some t)) (ds.map (·.2))
      (ds.map (·.2)) := by
    refine List.forall₂_same.2 fun t member => ?_
    obtain ⟨d, among, rfl⟩ := List.mem_map.1 member
    rw [owns d among]
    exact .ofVariable _
  exact tracks_bind (tracks_unifyAll (forall₂_zip own (read.imp fun _ _ h => h.mono le)))
    fun _ _ _ _ _ => tracks_pure fun _ _ => outline_of_matching matching ..

end ClientScript.Lift
