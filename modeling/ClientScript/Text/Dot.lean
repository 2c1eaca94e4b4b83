/-!
Text inside a quoted label of the DOT format. Quotes, backslashes, line feeds and angle brackets
are escaped; carriage returns are dropped.
-/
namespace ClientScript.Text.Dot

def escapeChar (c : Char) : List Char :=
  if c = '\\' then ['\\', '\\']
  else if c = '\x22' then ['\\', '\x22']
  else if c = '\n' then ['\\', 'n']
  else if c = '\r' then []
  else if c = '<' then ['\\', '<']
  else if c = '>' then ['\\', '>']
  else [c]

def escapeChars (cs : List Char) : List Char := cs.flatMap escapeChar

def escape (s : String) : String := String.ofList (escapeChars s.toList)

theorem escapeChars_append (xs ys : List Char) :
    escapeChars (xs ++ ys) = escapeChars xs ++ escapeChars ys := by
  simp [escapeChars]

end ClientScript.Text.Dot
