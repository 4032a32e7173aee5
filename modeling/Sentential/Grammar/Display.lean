import Sentential.Grammar.Term

/-!
# The notation of terms

Terms as they are shown to a reader: a literal in the quotes that it does not hold, alternatives in
parentheses, optional terms in brackets, repetitions in braces with their bounds.
-/
namespace Sentential.Term

open Text

/-- A literal stands in double quotes unless it holds one. -/
def showLiteral (text : String) : String :=
  if text.toList.contains '"' then "'" ++ text ++ "'" else "\"" ++ text ++ "\""

def showBounds (b : Bounds) : String :=
  match b.most with
  | some most => Numeral.decimal b.least.toNat ++ ".." ++ Numeral.decimal most.toNat
  | none => if b.least = 0 then "" else Numeral.decimal b.least.toNat ++ ".."

def showSet (s : CharacterSet) : String :=
  "$" ++ s.name ++ String.join (s.exclusions.map fun c => " - " ++ Quoted.char c)

mutual

/-- The pieces of the text of a term, in front of the pieces that follow it. -/
def pieces : Term → List String → List String
  | literal text, rest => showLiteral text :: rest
  | sequence terms, rest => sequencePieces terms rest
  | alternatives options, rest => "(" :: choicePieces options (")" :: rest)
  | reference production, rest => production :: rest
  | optional term _, rest => "[ " :: pieces term (" ]" :: rest)
  | repetition term bounds, rest => "\x7b " :: pieces term (" \x7d" :: showBounds bounds :: rest)
  | characters set, rest => showSet set :: rest
  | epsilon, rest => "()" :: rest

def sequencePieces : List Term → List String → List String
  | [], rest => rest
  | [t], rest => pieces t rest
  | t :: ts, rest => pieces t (", " :: sequencePieces ts rest)

def choicePieces : List Choice → List String → List String
  | [], rest => rest
  | [⟨t, _⟩], rest => pieces t rest
  | ⟨t, _⟩ :: ts, rest => pieces t (" | " :: choicePieces ts rest)

end

def display (t : Term) : String := String.join (t.pieces [])

end Sentential.Term
