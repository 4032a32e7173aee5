import Sentential.Policy.Basic
import Sentential.World.Sink

/-!
# Journals

A policy whose answers are written down, each on a line of its own with the place of the question.
The answers themselves are those of the policy underneath; where it fails nothing is written.
-/
namespace Sentential

open Text

/-- What is written down about an answer. -/
def Question.note : (q : Question) → q.Answer → String
  | .choice options, i => " choose: " ++ options[i].item.display
  | .count term _, n => " repeat " ++ term.display ++ " " ++ Numeral.decimal n ++ " times"
  | .inclusion term _, yes =>
    (if yes then " include optional " else " exclude optional ") ++ term.display ++ "."
  | .character _, c => " emit char " ++ Quoted.char c ++ "."

/-- Writes down the answers of a policy. -/
def Policy.noted {ρ ω : Type} (sink : Sink ω) (policy : Policy ρ ω) : Policy ρ ω := fun c q => do
  let answer ← policy c q
  sink.line ("At " ++ c.path ++ q.note answer)
  sink.flush
  pure answer

end Sentential
