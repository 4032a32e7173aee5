import Sentential.Document.Cursor
import Sentential.Grammar.Display
import Sentential.World.Act

/-!
# Policies

Generation asks a question at every point where the grammar leaves something open, and a policy
answers it. An answer can only be what the question offers: a position among the alternatives, a
count, a yes or no, a character. Whether a count lies within its bounds and a character belongs to
its set is left to the policy.
-/
namespace Sentential

/-- Which of the alternatives, how often the term, whether the term, and which character? -/
inductive Question where
  | choice (options : List Choice)
  | count (term : Term) (bounds : Bounds)
  | inclusion (term : Term) (probability : Float)
  | character (set : CharacterSet)

@[reducible] def Question.Answer : Question → Type
  | .choice options => Fin options.length
  | .count _ _ => Nat
  | .inclusion _ _ => Bool
  | .character _ => Char

/-- Answers questions that come up at the focus of a document. -/
def Policy (ρ ω : Type) : Type := Cursor ρ → (q : Question) → Act ω q.Answer

namespace Policy

variable {ρ ω σ : Type}

/-- A policy for a part of the world. -/
def within (p : Part ω σ) (policy : Policy ρ σ) : Policy ρ ω := fun c q => p.perform (policy c q)

end Policy

end Sentential
