import Sentential.Document.Node

/-!
# Outlines

The structure of a document in parentheses: a name, then the children, each on a line of its own
two columns further in. A sole child stays on the line of its parent.
-/
namespace Sentential

open Text

namespace Outline

variable {ρ : Type}

/-- What is still to be shown: a text as it is, or a node at some indentation. -/
inductive Item (ρ : Type) where
  | text (t : String)
  | node (n : Node ρ) (indent : Nat)

def newline (indent : Nat) : String := "\n" ++ String.ofList (List.replicate indent ' ')

/-- The children of a tree, in front of the items that follow. -/
def childItems (indent : Nat) : List (Node ρ) → List (Item ρ) → List (Item ρ)
  | [], rest => rest
  | c :: cs, rest => .text (newline indent) :: .node c indent :: childItems indent cs rest

def items (indent : Nat) (children : List (Node ρ)) (rest : List (Item ρ)) : List (Item ρ) :=
  match children with
  | [c] => .text " " :: .node c indent :: rest
  | cs => childItems indent cs rest

mutual

/-- How many items come up below a node. -/
def weight : Node ρ → Nat
  | .tree _ children => weights children + 2
  | .literal _ => 1
  | .deferred _ _ => 1

def weights : List (Node ρ) → Nat
  | [] => 0
  | c :: cs => weight c + 1 + weights cs

end

def Item.weight : Item ρ → Nat
  | .text _ => 1
  | .node n _ => Outline.weight n

def totalWeight : List (Item ρ) → Nat
  | [] => 0
  | item :: rest => item.weight + totalWeight rest

theorem totalWeight_childItems (indent : Nat) (cs : List (Node ρ)) (rest : List (Item ρ)) :
    totalWeight (childItems indent cs rest) = weights cs + totalWeight rest := by
  induction cs with
  | nil => simp [childItems, weights]
  | cons c cs ih => simp only [childItems, totalWeight, weights, Item.weight, ih]; omega

theorem totalWeight_items (indent : Nat) (cs : List (Node ρ)) (rest : List (Item ρ)) :
    totalWeight (items indent cs rest) = weights cs + totalWeight rest := by
  unfold items
  split
  · simp only [totalWeight, weights, Item.weight]; omega
  · exact totalWeight_childItems indent cs rest

/-- Shows items from left to right; what has been shown is kept last piece first. -/
def run : List (Item ρ) → List String → List String
  | [], shown => shown
  | .text t :: rest, shown => run rest (t :: shown)
  | .node (.literal t) _ :: rest, shown => run rest (Quoted.literal t :: shown)
  | .node (.deferred name _) _ :: rest, shown => run rest (")" :: name :: "(" :: shown)
  | .node (.tree name children) indent :: rest, shown =>
    run (items (indent + 2) children (.text ")" :: rest)) (name :: "(" :: shown)
termination_by todo => totalWeight todo
decreasing_by
  all_goals simp only [totalWeight, Item.weight, weight, totalWeight_items]; omega

end Outline

def Node.outline {ρ : Type} (n : Node ρ) : String :=
  String.join (Outline.run [.node n 0] []).reverse

end Sentential
