import Sentential.Grammar.Basic
import Sentential.Json.Value

/-!
# Saved grammars

The form in which grammars are kept in files. What can be left out because it goes without saying
is left out: absent limits, absent expected counts and empty exclusions.
-/
namespace Sentential

namespace Bounds

def members (b : Bounds) : List (String × Json) :=
  ("min", Json.ofNat b.least.toNat) ::
    (b.most.toList.map fun n => ("max", Json.ofNat n.toNat)) ++
      b.expected.toList.map fun n => ("norm", Json.ofNat n.toNat)

end Bounds

namespace CharacterSet

def toJson (s : CharacterSet) : Json :=
  .object (("set", .string s.name) ::
    if s.exclusions.isEmpty then []
    else [("exclusions", .array (s.exclusions.map fun c => .string (String.singleton c)))])

end CharacterSet

namespace Term

mutual

/-- A term is an object with one member that is named for its kind; the empty term is a word. -/
def toJson : Term → Json
  | literal text => .object [("literal", .string text)]
  | sequence terms => .object [("sequence", .array (toJsonAll terms))]
  | alternatives options => .object [("alternatives", .array (toJsonChoices options))]
  | reference production => .object [("non_terminal", .string production)]
  | optional t p =>
    .object [("optional", .object [("term", toJson t), ("probability", .ofFloat p)])]
  | repetition t b => .object [("repetition", .object (("term", toJson t) :: b.members))]
  | characters set => .object [("characters", set.toJson)]
  | epsilon => .string "epsilon"

def toJsonAll : List Term → List Json
  | [] => []
  | t :: ts => toJson t :: toJsonAll ts

def toJsonChoices : List Choice → List Json
  | [] => []
  | ⟨t, w⟩ :: ts => .object [("term", toJson t), ("bias", .ofFloat w)] :: toJsonChoices ts

end

end Term

namespace Grammar

def toJson (g : Grammar) : Json :=
  .object [("language", .string g.language),
    ("productions", .object (g.productions.entries.map fun (name, t) => (name, t.toJson)))]

def save (g : Grammar) : String := g.toJson.pretty

end Grammar

end Sentential
