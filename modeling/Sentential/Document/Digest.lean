import Sentential.Document.Node

/-!
# Hashing documents

A hasher takes texts and the payloads of deferred nodes, one after another, and keeps a state of its
own. A tree gives it the name and then the children, a literal the text alone: how a tree ends is
not marked.
-/
namespace Sentential

structure Hasher (ρ σ : Type) where
  text : String → σ → σ
  payload : ρ → σ → σ

namespace Node

variable {ρ σ : Type}

mutual

/-- The state of a hasher after a node. -/
def feed (h : Hasher ρ σ) : Node ρ → σ → σ
  | tree name children, state => feedAll h children (h.text name state)
  | literal text, state => h.text text state
  | deferred name payload, state => h.payload payload (h.text name state)

def feedAll (h : Hasher ρ σ) : List (Node ρ) → σ → σ
  | [], state => state
  | c :: cs, state => feedAll h cs (feed h c state)

end

end Node

end Sentential
