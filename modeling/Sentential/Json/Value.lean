import Sentential.Decimal.Layout

/-!
# Values of the saved format

The values that saved grammars consist of, and their two written forms: on one line, and indented
by two spaces a level. Numbers are kept as the text that stands for them.
-/
namespace Sentential

open Text

inductive Json where
  | null
  | number (text : String)
  | string (text : String)
  | array (items : List Json)
  | object (members : List (String × Json))

namespace Json

/-- One character of a quoted text. Only quotes, backslashes and controls are escaped. -/
def escape (c : Char) : String :=
  if c = '"' then "\\\""
  else if c = '\\' then "\\\\"
  else if c = '\n' then "\\n"
  else if c = '\r' then "\\r"
  else if c = '\t' then "\\t"
  else if c.toNat = 8 then "\\b"
  else if c.toNat = 12 then "\\f"
  else if c.toNat < 16 then "\\u000" ++ Numeral.hexadecimal c.toNat
  else if c.toNat < 32 then "\\u00" ++ Numeral.hexadecimal c.toNat
  else String.singleton c

def quote (text : String) : String := "\"" ++ String.join (text.toList.map escape) ++ "\""

def ofNat (n : Nat) : Json := .number (Numeral.decimal n)

/-- A finite number as its shortest decimal; the others have no text and become null. -/
def ofFloat (x : Float) : Json :=
  if x.isFinite then .number (Decimal.Layout.saved.text x) else .null

mutual

/-- The pieces of a value on one line, in front of those that follow. -/
def inline : Json → List String → List String
  | null, rest => "null" :: rest
  | number text, rest => text :: rest
  | string text, rest => quote text :: rest
  | array items, rest => "[" :: inlineItems true items ("]" :: rest)
  | object members, rest => "\x7b" :: inlineMembers true members ("\x7d" :: rest)

def inlineItems : Bool → List Json → List String → List String
  | _, [], rest => rest
  | first, v :: vs, rest =>
    (if first then "" else ",") :: inline v (inlineItems false vs rest)

def inlineMembers : Bool → List (String × Json) → List String → List String
  | _, [], rest => rest
  | first, (name, v) :: vs, rest =>
    (if first then "" else ",") :: quote name :: ":" :: inline v (inlineMembers false vs rest)

end

def newline (level : Nat) : String := "\n" ++ String.ofList (List.replicate (2 * level) ' ')

mutual

/-- The pieces of an indented value at some level, in front of those that follow. -/
def indented (level : Nat) : Json → List String → List String
  | null, rest => "null" :: rest
  | number text, rest => text :: rest
  | string text, rest => quote text :: rest
  | array [], rest => "[]" :: rest
  | object [], rest => "\x7b\x7d" :: rest
  | array (v :: vs), rest =>
    "[" :: newline (level + 1) :: indented (level + 1) v
      (indentedItems (level + 1) vs (newline level :: "]" :: rest))
  | object ((name, v) :: vs), rest =>
    "\x7b" :: newline (level + 1) :: quote name :: ": " :: indented (level + 1) v
      (indentedMembers (level + 1) vs (newline level :: "\x7d" :: rest))

def indentedItems (level : Nat) : List Json → List String → List String
  | [], rest => rest
  | v :: vs, rest => "," :: newline level :: indented level v (indentedItems level vs rest)

def indentedMembers (level : Nat) : List (String × Json) → List String → List String
  | [], rest => rest
  | (name, v) :: vs, rest =>
    "," :: newline level :: quote name :: ": " :: indented level v
      (indentedMembers level vs rest)

end

def compact (v : Json) : String := String.join (v.inline [])

def pretty (v : Json) : String := String.join (v.indented 0 [])

end Json

end Sentential
