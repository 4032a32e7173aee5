import Sentential.Document.Node
import Sentential.World.Sink

/-!
# Writing documents

The text of a document is written from left to right: literals are appended to a sink, and deferred
nodes are invoked where they stand, with the trees around them. The first fault ends the writing.
-/
namespace Sentential

namespace Writing

variable {ρ ω : Type}

/-- Siblings that are still to be written, and the trees around them, innermost first. -/
structure Layer (ρ : Type) where
  nodes : List (Node ρ)
  above : List (Node ρ)

mutual

def weight : Node ρ → Nat
  | .tree _ children => weights children + 2
  | .literal _ => 1
  | .deferred _ _ => 1

def weights : List (Node ρ) → Nat
  | [] => 0
  | c :: cs => weight c + weights cs

end

def totalWeight : List (Layer ρ) → Nat
  | [] => 0
  | layer :: rest => weights layer.nodes + 1 + totalWeight rest

/-- Writes layers, innermost first. -/
def run (invoke : Spot ρ → Act ω Unit) (sink : Sink ω) : List (Layer ρ) → Act ω Unit
  | [] => pure ()
  | ⟨[], _⟩ :: rest => run invoke sink rest
  | ⟨.literal text :: nodes, above⟩ :: rest => do
    sink.append text
    run invoke sink (⟨nodes, above⟩ :: rest)
  | ⟨.deferred name payload :: nodes, above⟩ :: rest => do
    invoke ⟨.deferred name payload, above⟩
    run invoke sink (⟨nodes, above⟩ :: rest)
  | ⟨.tree name children :: nodes, above⟩ :: rest =>
    run invoke sink (⟨children, .tree name children :: above⟩ :: ⟨nodes, above⟩ :: rest)
termination_by layers => totalWeight layers
decreasing_by all_goals simp only [totalWeight, weights, weight]; omega

end Writing

def Spot.write {ρ ω : Type} (invoke : Spot ρ → Act ω Unit) (sink : Sink ω) (s : Spot ρ) :
    Act ω Unit :=
  Writing.run invoke sink [⟨[s.node], s.above⟩]

end Sentential
