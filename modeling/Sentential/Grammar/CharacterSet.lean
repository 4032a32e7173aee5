import Sentential.Fault

/-!
# Character sets

A grammar refers to characters by the name of a set and may exclude some of them. The names of the
control characters stand for those characters, `ANY` for all characters, and `EOI` or `EOF` for the
end of input, which is no character.
-/
namespace Sentential

inductive Meaning where
  | only (c : Char)
  | any
  | endOfInput
  deriving DecidableEq, Repr

/-- The names of the control characters below the space, in the order of their code points. -/
def controlNames : List String :=
  ["NUL", "SOH", "STX", "ETX", "EOT", "ENQ", "ACK", "BEL", "BS", "TAB", "LF", "VT", "FF", "CR", "SO",
    "SI", "DLE", "DC1", "DC2", "DC3", "DC4", "NAK", "SYN", "ETB", "CAN", "EM", "SUB", "ESC", "FS",
    "GS", "RS", "US"]

/-- The meaning of a name, if it has one. -/
def Meaning.ofName? (name : String) : Option Meaning :=
  if name = "SPACE" then some (.only ' ')
  else if name = "DEL" then some (.only '\x7f')
  else if name = "ANY" then some .any
  else if name = "EOI" ∨ name = "EOF" then some .endOfInput
  else (controlNames.idxOf? name).map fun i => .only (Char.ofNat i)

structure CharacterSet where
  name : String
  exclusions : List Char
  deriving DecidableEq, Repr

namespace CharacterSet

def anyExcept (exclusions : List Char) : CharacterSet := ⟨"ANY", exclusions⟩

def meaning (s : CharacterSet) : Except Fault Meaning :=
  match Meaning.ofName? s.name with
  | some m => .ok m
  | none => .error (.unknownSet s.name)

def excludes (s : CharacterSet) (c : Char) : Bool := s.exclusions.contains c

/-- Membership. A set with an unknown name has no members, and neither has the end of input. -/
def contains (s : CharacterSet) (c : Char) : Bool :=
  !s.excludes c &&
    match Meaning.ofName? s.name with
    | some (.only d) => d == c
    | some .any => true
    | some .endOfInput | none => false

def isEndOfInput (s : CharacterSet) : Bool := Meaning.ofName? s.name == some .endOfInput

end CharacterSet

end Sentential
