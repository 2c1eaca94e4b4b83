import ClientScript.Text.Hidden

/-!
A character in single quotes, for messages. The quote, the backslash and the characters that
would not show as themselves are written as escapes.
-/
namespace ClientScript.Text

def hex (n : Nat) : String := String.ofList (Nat.toDigits 16 n)

def escapeChar (c : Char) : String :=
  if c.toNat = 0 then "\\0"
  else if c = '\t' then "\\t"
  else if c = '\n' then "\\n"
  else if c = '\r' then "\\r"
  else if c = '\x27' then "\\'"
  else if c = '\\' then "\\\\"
  else if isHidden c then "\\u\x7b" ++ hex c.toNat ++ "\x7d"
  else c.toString

def quoteChar (c : Char) : String := "'" ++ escapeChar c ++ "'"

end ClientScript.Text
