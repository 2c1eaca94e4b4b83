import ClientScript.Text.Dot

/-!
Reading labels back. A backslash gives the next character a meaning: behind `\l` a new line of the
label starts, and the other escapes stand for single characters. Main statement: an escaped text
reads as the text without its carriage returns, whatever is behind it.
-/
namespace ClientScript.Text.Dot

def meaning? : Char → Option Char
  | '\\' => some '\\'
  | '\x22' => some '\x22'
  | 'n' => some '\n'
  | '<' => some '<'
  | '>' => some '>'
  | _ => none

/-- The lines of a label and what follows the last of them; `line` is the one being read. -/
def linesFrom (line : List Char) : List Char → Option (List String × String)
  | [] => some ([], String.ofList line)
  | ['\\'] => none
  | '\\' :: 'l' :: rest => do
    let (lines, last) ← linesFrom [] rest
    return (String.ofList line :: lines, last)
  | '\\' :: c :: rest => do
    let meant ← meaning? c
    linesFrom (line ++ [meant]) rest
  | c :: rest => linesFrom (line ++ [c]) rest

def lines? (label : String) : Option (List String × String) := linesFrom [] label.toList

/-- A text as it can be read back. -/
def withoutReturns (s : String) : String := String.ofList (s.toList.filter (· ≠ '\r'))

def special : List Char := ['\\', '\x22', '\n', '\r', '<', '>']

theorem escapeChar_of_plain {c : Char} (plain : c ∉ special) : escapeChar c = [c] := by
  simp only [special, List.mem_cons, List.not_mem_nil, or_false, not_or] at plain
  simp [escapeChar, plain]

theorem escapeChar_cases (c : Char) :
    (c = '\r' ∧ escapeChar c = []) ∨
    (c ≠ '\r' ∧ ∃ e, meaning? e = some c ∧ escapeChar c = ['\\', e]) ∨
    (c ∉ special ∧ escapeChar c = [c]) := by
  by_cases among : c ∈ special
  · simp only [special, List.mem_cons, List.not_mem_nil, or_false] at among
    rcases among with rfl | rfl | rfl | rfl | rfl | rfl
    · exact .inr (.inl ⟨by decide, '\\', rfl, rfl⟩)
    · exact .inr (.inl ⟨by decide, '\x22', rfl, rfl⟩)
    · exact .inr (.inl ⟨by decide, 'n', rfl, rfl⟩)
    · exact .inl ⟨rfl, rfl⟩
    · exact .inr (.inl ⟨by decide, '<', rfl, rfl⟩)
    · exact .inr (.inl ⟨by decide, '>', rfl, rfl⟩)
  · exact .inr (.inr ⟨among, escapeChar_of_plain among⟩)

theorem escapeChars_of_plain {cs : List Char} (plain : ∀ c ∈ cs, c ∉ special) :
    escapeChars cs = cs := by
  induction cs with
  | nil => rfl
  | cons c cs ih =>
    have rest := ih fun d member => plain d (List.mem_cons_of_mem c member)
    have first := escapeChar_of_plain (plain c List.mem_cons_self)
    rw [escapeChars, List.flatMap_cons, ← escapeChars, rest, first, List.singleton_append]

/-- A text that is written as it is. -/
def Verbatim (s : String) : Prop := ∀ c ∈ s.toList, c ∉ special

theorem verbatim_of_all {s : String} (all : s.toList.all (!special.contains ·) = true) :
    Verbatim s := by
  intro c member among
  have outside := List.all_eq_true.1 all c member
  simp [among] at outside

theorem Verbatim.append {s s' : String} (first : Verbatim s) (later : Verbatim s') :
    Verbatim (s ++ s') := by
  intro c member
  rw [String.toList_append] at member
  exact (List.mem_append.1 member).elim (first c) (later c)

theorem Verbatim.escape_eq {s : String} (verbatim : Verbatim s) : escape s = s := by
  rw [escape, escapeChars_of_plain verbatim, String.ofList_toList]

theorem Verbatim.withoutReturns_eq {s : String} (verbatim : Verbatim s) :
    withoutReturns s = s := by
  have kept : s.toList.filter (· ≠ '\r') = s.toList := by
    refine List.filter_eq_self.2 fun c member => decide_eq_true fun same => ?_
    exact verbatim c member (same ▸ by decide)
  rw [withoutReturns, kept, String.ofList_toList]

theorem escape_append (s s' : String) : escape (s ++ s') = escape s ++ escape s' := by
  rw [escape, String.toList_append, escapeChars_append, String.ofList_append]
  rfl

theorem feed_not_mem_escape (s : String) : '\n' ∉ (escape s).toList := by
  rw [escape, String.toList_ofList, escapeChars, List.mem_flatMap]
  rintro ⟨c, -, member⟩
  rcases escapeChar_cases c with ⟨-, written⟩ | ⟨-, e, means, written⟩ | ⟨plain, written⟩
  · simp [written] at member
  · obtain rfl : '\n' = e := by simpa [written] using member
    simp [meaning?] at means
  · obtain rfl : '\n' = c := by simpa [written] using member
    simp [special] at plain

theorem linesFrom_plain {c : Char} (plain : c ≠ '\\') (line rest : List Char) :
    linesFrom line (c :: rest) = linesFrom (line ++ [c]) rest := by
  rw [linesFrom] <;> simp_all

theorem linesFrom_escape {e c : Char} (means : meaning? e = some c) (line rest : List Char) :
    linesFrom line ('\\' :: e :: rest) = linesFrom (line ++ [c]) rest := by
  have other : e ≠ 'l' := by rintro rfl; simp [meaning?] at means
  rw [linesFrom, means]
  · rfl
  · exact other

theorem linesFrom_escapeChar (c : Char) (line rest : List Char) :
    linesFrom line (escapeChar c ++ rest) = linesFrom (line ++ [c].filter (· ≠ '\r')) rest := by
  rcases escapeChar_cases c with ⟨rfl, written⟩ | ⟨other, e, means, written⟩ | ⟨plain, written⟩
  · simp [written]
  · simpa [written, other] using linesFrom_escape means line rest
  · simp only [special, List.mem_cons, List.not_mem_nil, or_false, not_or] at plain
    simpa [written, plain] using linesFrom_plain plain.1 line rest

theorem linesFrom_escapeChars (cs line rest : List Char) :
    linesFrom line (escapeChars cs ++ rest) = linesFrom (line ++ cs.filter (· ≠ '\r')) rest := by
  induction cs generalizing line with
  | nil => simp [escapeChars]
  | cons c cs ih =>
    rw [escapeChars, List.flatMap_cons, List.append_assoc, linesFrom_escapeChar, ← escapeChars, ih,
      List.append_assoc, ← List.filter_append, List.singleton_append]

theorem lines?_escape (s : String) : lines? (escape s) = some ([], withoutReturns s) := by
  have read := linesFrom_escapeChars s.toList [] []
  rw [List.append_nil, List.nil_append] at read
  rw [lines?, escape, String.toList_ofList, read]
  rfl

theorem lines?_join (texts : List String) :
    lines? (String.join (texts.map fun s => escape s ++ "\\l")) =
      some (texts.map withoutReturns, "") := by
  rw [lines?, String.toList_join, List.flatMap_map]
  induction texts with
  | nil => rfl
  | cons s texts ih =>
    rw [List.flatMap_cons, String.toList_append, escape, String.toList_ofList, List.append_assoc,
      linesFrom_escapeChars]
    change linesFrom _ ('\\' :: 'l' :: texts.flatMap _) = _
    rw [linesFrom, ih]
    rfl

/-- Only the escape that is not part of a text ends a line. -/
example : lines? "f(\\\"\\\\l\\\"\\n)\\l" = some (["f(\"\\l\"\n)"], "") := by decide

end ClientScript.Text.Dot
