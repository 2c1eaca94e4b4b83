import ClientScript.Proofs.Text.Escapes

/-!
Reading the DOT format. Text is cut into names, quoted or not, and marks; a statement ends with a
semicolon and sets an attribute, gives defaults, or tells of a node or an edge. What stands between
quotes is taken as it is, and a backslash keeps the character behind it from ending it. Main
statements: an escaped text between quotes is one name, and statements that stand one behind another
are read one by one.
-/
namespace ClientScript.Text.Dot

inductive Name where
  | bare (text : String)
  | quoted (text : String)
  deriving DecidableEq

inductive Token where
  | name (n : Name)
  | mark (c : Char)
  | arrow
  deriving DecidableEq

def isWord (c : Char) : Bool := c.isAlphanum || c == '_'

inductive Reading where
  | between
  | word (text : List Char)
  | dash
  | quoted (text : List Char)
  | escape (text : List Char)

/-- Read a character that belongs to no token before it. -/
def begin? (c : Char) : Option (Reading × List Token) :=
  if c = ' ' || c = '\n' then some (.between, [])
  else if c = '\x22' then some (.quoted [], [])
  else if c = '-' then some (.dash, [])
  else if isWord c then some (.word [c], [])
  else if ['\x7b', '\x7d', '[', ']', '=', ',', ';'].contains c then some (.between, [.mark c])
  else none

def step? : Reading → Char → Option (Reading × List Token)
  | .between, c => begin? c
  | .word w, c =>
    if isWord c then some (.word (w ++ [c]), [])
    else (begin? c).map fun r => (r.1, .name (.bare (String.ofList w)) :: r.2)
  | .dash, c => if c = '>' then some (.between, [.arrow]) else none
  | .quoted t, c =>
    if c = '\x22' then some (.between, [.name (.quoted (String.ofList t))])
    else if c = '\\' then some (.escape t, [])
    else some (.quoted (t ++ [c]), [])
  | .escape t, c => some (.quoted (t ++ ['\\', c]), [])

def run? : Reading → List Char → Option (Reading × List Token)
  | r, [] => some (r, [])
  | r, c :: cs => (step? r c).bind fun s => (run? s.1 cs).map fun e => (e.1, s.2 ++ e.2)

def finish? : Reading × List Token → Option (List Token)
  | (.between, ts) => some ts
  | (.word w, ts) => some (ts ++ [.name (.bare (String.ofList w))])
  | _ => none

def tokens? (s : String) : Option (List Token) := (run? .between s.toList).bind finish?

structure Attribute where
  key : Name
  value : Name

inductive Statement where
  | setting (a : Attribute)
  | defaults (kind : Name) (attributes : List Attribute)
  | node (name : Name) (attributes : List Attribute)
  | edge (source target : Name) (attributes : List Attribute)

structure Document where
  name : Name
  statements : List Statement

def Name.isKind (n : Name) : Bool := [.bare "graph", .bare "node", .bare "edge"].contains n

def attributes? : List Token → Option (List Attribute)
  | [.name k, .mark '=', .name v, .mark ']'] => some [⟨k, v⟩]
  | .name k :: .mark '=' :: .name v :: .mark ',' :: rest =>
    (attributes? rest).map (⟨k, v⟩ :: ·)
  | _ => none

def statement? : List Token → Option Statement
  | [.name k, .mark '=', .name v] => some (.setting ⟨k, v⟩)
  | .name n :: .mark '[' :: rest =>
    (attributes? rest).map fun as => if n.isKind then .defaults n as else .node n as
  | .name a :: .arrow :: .name b :: .mark '[' :: rest => (attributes? rest).map (.edge a b)
  | _ => none

def statements? (ts : List Token) : List Token → Option (List Statement)
  | [] => none
  | [.mark '\x7d'] => if ts.isEmpty then some [] else none
  | .mark ';' :: rest => (statement? ts).bind fun s => (statements? [] rest).map (s :: ·)
  | t :: rest => statements? (ts ++ [t]) rest

def document? (s : String) : Option Document :=
  match tokens? s with
  | some (.name (.bare "digraph") :: .name n :: .mark '\x7b' :: rest) =>
    (statements? [] rest).map (⟨n, ·⟩)
  | _ => none

def Document.nodes (d : Document) : List (Name × List Attribute) :=
  d.statements.filterMap fun
    | .node n as => some (n, as)
    | _ => none

def Document.edges (d : Document) : List (Name × Name × List Attribute) :=
  d.statements.filterMap fun
    | .edge a b as => some (a, b, as)
    | _ => none

def Document.settings (d : Document) : List Attribute :=
  d.statements.filterMap fun
    | .setting a => some a
    | _ => none

def label? (as : List Attribute) : Option (List String × String) :=
  (as.find? fun a => a.key = .bare "label").bind fun a =>
    match a.value with
    | .quoted text => lines? text
    | .bare text => some ([], text)

/-- Reading `s` goes on from `r`, ends the tokens `ts` and leaves `r'`. -/
def Passes (r : Reading) (s : String) (r' : Reading) (ts : List Token) : Prop :=
  run? r s.toList = some (r', ts)

def Reads (s : String) (ts : List Token) : Prop := Passes .between s .between ts

theorem run?_append {r r' : Reading} {xs : List Char} {ts : List Token}
    (first : run? r xs = some (r', ts)) (ys : List Char) :
    run? r (xs ++ ys) = (run? r' ys).map fun e => (e.1, ts ++ e.2) := by
  induction xs generalizing r ts with
  | nil =>
    obtain ⟨rfl, rfl⟩ : r = r' ∧ [] = ts := by simpa [run?] using first
    simp
  | cons c xs ih =>
    cases stepped : step? r c with
    | none => simp [run?, stepped] at first
    | some s =>
      simp only [run?, stepped, Option.bind_some, Option.map_eq_some_iff, Prod.mk.injEq] at first
      obtain ⟨⟨r'', us⟩, later, rfl, rfl⟩ := first
      rw [List.cons_append, run?, stepped, Option.bind_some, ih later, Option.map_map]
      simp [Function.comp_def]

theorem Passes.append {r r' r'' : Reading} {s s' : String} {ts us : List Token}
    (first : Passes r s r' ts) (later : Passes r' s' r'' us) :
    Passes r (s ++ s') r'' (ts ++ us) := by
  rw [Passes, String.toList_append, run?_append first, later]
  rfl

theorem Reads.tokens?_append {s : String} {ts : List Token} (first : Reads s ts) (rest : String) :
    tokens? (s ++ rest) = (tokens? rest).map (ts ++ ·) := by
  rw [tokens?, String.toList_append, run?_append first, tokens?]
  cases run? .between rest.toList with
  | none => rfl
  | some e =>
    obtain ⟨r, us⟩ := e
    cases r <;> simp [finish?]

theorem Reads.tokens?_eq {s : String} {ts : List Token} (reads : Reads s ts) :
    tokens? s = some ts := by
  rw [tokens?, reads]
  rfl

theorem passes_word {s : String} (all : ∀ c ∈ s.toList, isWord c) (w : List Char) :
    Passes (.word w) s (.word (w ++ s.toList)) [] := by
  unfold Passes
  generalize s.toList = cs at all
  induction cs generalizing w with
  | nil => simp [run?]
  | cons c cs ih =>
    have read := ih (w ++ [c]) fun d member => all d (List.mem_cons_of_mem c member)
    simp [run?, step?, all c List.mem_cons_self, read]

/-- A blank ends a word, and is read as if nothing were before it. -/
theorem Passes.behind_word {s : String} {r : Reading} {ts : List Token}
    (later : Passes .between s r ts) (blank : s.toList.head? = some ' ') (w : String) :
    Passes (.word w.toList) s r (.name (.bare w) :: ts) := by
  unfold Passes at *
  cases listed : s.toList with
  | nil => simp [listed] at blank
  | cons c cs =>
    obtain rfl : c = ' ' := by simpa [listed] using blank
    have ends : step? (.word w.toList) ' ' = some (.between, [.name (.bare w)]) := by
      rw [step?, String.ofList_toList]
      rfl
    have begins : step? .between ' ' = some (.between, []) := rfl
    rw [listed, run?, begins] at later
    have later : run? .between cs = some (r, ts) := by simpa using later
    rw [run?, ends, Option.bind_some, later]
    rfl

/-- Between quotes, a text that is read to its end and no further. -/
def Quotable (s : String) : Prop := ∀ t, Passes (.quoted t) s (.quoted (t ++ s.toList)) []

theorem Quotable.append {s s' : String} (first : Quotable s) (later : Quotable s') :
    Quotable (s ++ s') := by
  intro t
  simpa using (first t).append (later (t ++ s.toList))

theorem quotable_join {texts : List String} (each : ∀ s ∈ texts, Quotable s) :
    Quotable (String.join texts) := by
  induction texts with
  | nil => intro t; simp [Passes, run?, String.join]
  | cons s texts ih =>
    have first := each s List.mem_cons_self
    have later := ih fun s' member => each s' (List.mem_cons_of_mem s member)
    intro t
    have both := first.append later t
    simpa [Passes, String.toList_join] using both

theorem run?_escapeChar (c : Char) (t : List Char) :
    run? (.quoted t) (escapeChar c) = some (.quoted (t ++ escapeChar c), []) := by
  rcases escapeChar_cases c with ⟨-, written⟩ | ⟨-, e, -, written⟩ | ⟨plain, written⟩
  · simp [written, run?]
  · simp [written, run?, step?]
  · simp only [special, List.mem_cons, List.not_mem_nil, or_false, not_or] at plain
    simp [written, run?, step?, plain]

theorem quotable_escape (s : String) : Quotable (escape s) := by
  intro t
  rw [Passes, escape, String.toList_ofList]
  induction s.toList generalizing t with
  | nil => simp [escapeChars, run?]
  | cons c cs ih =>
    rw [escapeChars, List.flatMap_cons, run?_append (run?_escapeChar c t), ← escapeChars, ih]
    simp

theorem Quotable.passes {s rest : String} {r : Reading} {ts : List Token} (quotable : Quotable s)
    (later : Passes .between rest r ts) :
    Passes (.quoted []) (s ++ ("\"" ++ rest)) r (.name (.quoted s) :: ts) := by
  have closes : Passes (.quoted s.toList) "\"" .between [.name (.quoted s)] := by
    simp [Passes, run?, step?]
  exact (quotable []).append (closes.append later)

/-- An escaped text between quotes is one name, whatever is behind the closing quote. -/
theorem tokens?_escape (s rest : String) :
    tokens? ("\"" ++ escape s ++ "\"" ++ rest) =
      (tokens? rest).map (.name (.quoted (escape s)) :: ·) := by
  have opens : Passes .between "\"" (.quoted []) [] := rfl
  have nothing : Reads "" [] := rfl
  have reads : Reads _ _ := opens.append ((quotable_escape s).passes nothing)
  rw [String.append_empty, ← String.append_assoc] at reads
  exact reads.tokens?_append rest

def Holds (s : String) (ss : List Statement) : Prop :=
  ∃ ts, Reads s ts ∧ ∀ rest, statements? [] (ts ++ rest) = (statements? [] rest).map (ss ++ ·)

theorem statements?_append {us : List Token} (unended : .mark ';' ∉ us) (ts rest : List Token) :
    statements? ts (us ++ .mark ';' :: rest) =
      (statement? (ts ++ us)).bind fun s => (statements? [] rest).map (s :: ·) := by
  induction us generalizing ts with
  | nil => simp [statements?]
  | cons t us ih =>
    have first : t ≠ .mark ';' := fun same => unended (same ▸ List.mem_cons_self)
    have later := ih (fun member => unended (List.mem_cons_of_mem t member)) (ts ++ [t])
    rw [List.append_assoc, List.singleton_append] at later
    rw [List.cons_append, statements?, later]
    · simp
    · exact first

theorem holds_statement {s : String} {statement : Statement} (ts : List Token)
    (reads : Reads s (ts ++ [.mark ';'])) (unended : .mark ';' ∉ ts)
    (parsed : statement? ts = some statement) : Holds s [statement] := by
  refine ⟨_, reads, fun rest => ?_⟩
  rw [List.append_assoc, List.singleton_append, statements?_append unended, List.nil_append, parsed]
  rfl

theorem holds_nothing {s : String} (reads : Reads s []) : Holds s [] :=
  ⟨[], reads, fun rest => by simp⟩

theorem Holds.append {s s' : String} {ss ss' : List Statement} (first : Holds s ss)
    (later : Holds s' ss') : Holds (s ++ s') (ss ++ ss') := by
  obtain ⟨ts, reads, holds⟩ := first
  obtain ⟨us, reads', holds'⟩ := later
  refine ⟨ts ++ us, Passes.append reads reads', fun rest => ?_⟩
  rw [List.append_assoc, holds, holds', Option.map_map]
  simp [Function.comp_def]

theorem holds_join {α : Type} {text : α → String} {statement : α → Statement}
    (each : ∀ a, Holds (text a) [statement a]) (items : List α) :
    Holds (String.join (items.map text)) (items.map statement) := by
  induction items with
  | nil => exact holds_nothing rfl
  | cons a items ih =>
    obtain ⟨ts, reads, holds⟩ := (each a).append ih
    refine ⟨ts, ?_, holds⟩
    simpa [Reads, Passes, String.toList_join] using reads

theorem Holds.document?_eq {head body : String} {name : Name} {ss : List Statement}
    (opens : Reads head [.name (.bare "digraph"), .name name, .mark '\x7b'])
    (holds : Holds body ss) : document? (head ++ body ++ "\x7d\n") = some ⟨name, ss⟩ := by
  obtain ⟨ts, reads, holds⟩ := holds
  have closes : Reads "\x7d\n" [.mark '\x7d'] := rfl
  have whole : Reads _ _ := (opens.append reads).append closes
  rw [document?, whole.tokens?_eq]
  change (statements? [] (ts ++ [.mark '\x7d'])).map _ = _
  rw [holds]
  simp [statements?]

end ClientScript.Text.Dot
