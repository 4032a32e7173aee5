import Sentential.Document.Cursor
import Sentential.Document.Writing

/-!
# Replacements

A replacement gives the text of a production in place of the grammar. It runs whenever a document
that refers to the production is written, and sees where it stands and the context of the run that
the document comes from. It can fall back on what the grammar would have generated.
-/
namespace Sentential

variable {ρ ω : Type}

/-- What a replacement sees when it runs: the deferred node with the trees around it, the context of
the run, and a way to write what the grammar generates for the production. -/
structure Invocation (ρ ω : Type) where
  spot : Spot ρ
  production : String
  context : ρ
  sink : Sink ω
  fallback : Act ω Unit

structure Replacement (ρ ω : Type) where
  production : String
  run : Invocation ρ ω → Act ω Unit

/-- Fills an empty document that hangs below the trees around a node, and writes it. -/
def Spot.expand (invoke : Spot ρ → Act ω Unit) (sink : Sink ω) (name : String)
    (fill : Cursor ρ → Act ω (Cursor ρ)) (s : Spot ρ) : Act ω Unit := do
  let c ← fill (.detached name s.above)
  Spot.write invoke sink ⟨c.document, s.above⟩

end Sentential
