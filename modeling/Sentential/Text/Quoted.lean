import Sentential.Text.Numeral
import Sentential.Text.Visible

/-!
# Quoted text

Characters and texts between quotes, with everything that cannot be shown written as an escape.
Only the quote that encloses the text is escaped in it.
-/
namespace Sentential.Text.Quoted

/-- One character inside the given quote. -/
def escape (quote c : Char) : String :=
  if c = quote ∨ c = '\\' then "\\" ++ String.singleton c
  else if c = '\n' then "\\n"
  else if c = '\r' then "\\r"
  else if c = '\t' then "\\t"
  else if c.toNat = 0 then "\\0"
  else if isVisible c then String.singleton c
  else "\\u\x7b" ++ Numeral.hexadecimal c.toNat ++ "\x7d"

def char (c : Char) : String := "'" ++ escape '\'' c ++ "'"

def text (t : String) : String :=
  "\"" ++ String.join (t.toList.map (escape '"')) ++ "\""

/-- A literal of a document between single quotes. Only the line breaks and the tabulator are
escaped; a quote or a backslash stands for itself. -/
def literal (t : String) : String :=
  "'" ++ String.join (t.toList.map fun c =>
    if c = '\r' then "\\r" else if c = '\n' then "\\n" else if c = '\t' then "\\t"
    else String.singleton c) ++ "'"

end Sentential.Text.Quoted
