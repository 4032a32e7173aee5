import Sentential.Text.Quoted

/-!
# Documents

A document is a tree of named nodes with literal text at its leaves. A deferred node stands for the
output of a production that is only determined when the document is written; what it carries is
left open here.
-/
namespace Sentential

open Text

inductive Node (ρ : Type) where
  | tree (name : String) (children : List (Node ρ))
  | literal (text : String)
  | deferred (name : String) (payload : ρ)

namespace Node

variable {ρ : Type}

def name? : Node ρ → Option String
  | tree name _ => some name
  | deferred name _ => some name
  | literal _ => none

def text? : Node ρ → Option String
  | literal text => some text
  | _ => none

def children : Node ρ → List (Node ρ)
  | tree _ children => children
  | _ => []

def childCount (n : Node ρ) : Nat := n.children.length

def isTree : Node ρ → Bool
  | tree _ _ => true
  | _ => false

def isLiteral : Node ρ → Bool
  | literal _ => true
  | _ => false

def isDeferred : Node ρ → Bool
  | deferred _ _ => true
  | _ => false

mutual

/-- Whether two documents are equal, given when the payloads of deferred nodes are. -/
def same (eq : ρ → ρ → Bool) : Node ρ → Node ρ → Bool
  | tree m cs, tree n ds => m == n && sameAll eq cs ds
  | literal s, literal t => s == t
  | deferred m p, deferred n q => m == n && eq p q
  | _, _ => false

def sameAll (eq : ρ → ρ → Bool) : List (Node ρ) → List (Node ρ) → Bool
  | [], [] => true
  | c :: cs, d :: ds => same eq c d && sameAll eq cs ds
  | _, _ => false

end

mutual

/-- The pieces of the text that shows a document on one line, in front of those that follow. -/
def pieces : Node ρ → List String → List String
  | literal text, rest => Quoted.literal text :: rest
  | deferred name _, rest => "Replacement\x7b" :: name :: "\x7d" :: rest
  | tree name children, rest =>
    "Tree\x7b" :: name :: childPieces ": " children ("\x7d" :: rest)

def childPieces (separator : String) : List (Node ρ) → List String → List String
  | [], rest => rest
  | c :: cs, rest => separator :: pieces c (childPieces ", " cs rest)

end

def display (n : Node ρ) : String := String.join (n.pieces [])

end Node

/-- A node of a document together with the trees around it, innermost first. -/
structure Spot (ρ : Type) where
  node : Node ρ
  above : List (Node ρ)

namespace Spot

variable {ρ : Type}

def child? (s : Spot ρ) (i : Nat) : Option (Spot ρ) :=
  s.node.children[i]?.map fun c => ⟨c, s.node :: s.above⟩

def descend? (s : Spot ρ) : List Nat → Option (Spot ρ)
  | [] => some s
  | i :: is => (s.child? i).bind fun c => descend? c is

def parent? (s : Spot ρ) : Option (Node ρ) := s.above.head?

def parentName? (s : Spot ρ) : Option String := s.parent?.bind Node.name?

/-- The names from the outermost tree down to the node. -/
def names (s : Spot ρ) : List String :=
  (s.node :: s.above).reverse.map fun n => n.name?.getD ""

end Spot

def showPath (names : List String) : String := " -> ".intercalate names

end Sentential
