import Sentential.Generation.Generator
import Sentential.Proofs.Steps

/-!
# Documents of a generator

What it takes to make a document: a definition to build, a context, and a build that ends. Messages
go to the log before and after that.
-/
namespace Sentential.Generator

variable {κ ω : Type} (g : Generator κ ω)

/-- The world when a document is going to be made. -/
def begun (start : String) (w : ω) : ω :=
  g.log.record .debug (fun _ => "generating " ++ g.grammar.language ++ " from " ++ start) w

def ended (document : Node κ) (w : ω) : ω :=
  g.log.record .debug (fun _ => "generated tree with " ++
    Text.Numeral.decimal document.childCount ++ " top level nodes") w

variable {g}

theorem document_eq_value_iff {start : String} {document : Node κ} {w v : ω} :
    g.document start w = (.value document, v) ↔
      ∃ definition context u c u', g.grammar.definition start = .ok definition ∧
        g.context (g.begun start w) = (.value context, u) ∧
        (g.builder context).build g.budget (.root start) definition u = (.value c, u') ∧
        c.document = document ∧ g.ended document u' = v := by
  constructor
  · intro h
    obtain ⟨_, _, hbegun, h⟩ := Act.bind_eq_value_iff.1 h
    cases hbegun
    obtain ⟨definition, _, hdefinition, h⟩ := Act.bind_eq_value_iff.1 h
    obtain ⟨defined, rfl⟩ := Act.ofExcept_eq_value_iff.1 hdefinition
    obtain ⟨context, u, hcontext, h⟩ := Act.bind_eq_value_iff.1 h
    obtain ⟨c, u', hbuild, h⟩ := Act.bind_eq_value_iff.1 h
    obtain ⟨_, _, hended, h⟩ := Act.bind_eq_value_iff.1 h
    cases hended
    cases h
    exact ⟨definition, context, u, c, u', defined, hcontext, hbuild, rfl, rfl⟩
  · rintro ⟨definition, context, u, c, u', defined, hcontext, hbuild, rfl, rfl⟩
    have hdefinition : Act.ofExcept (g.grammar.definition start) (g.begun start w) =
        (.value definition, g.begun start w) := Act.ofExcept_eq_value_iff.2 ⟨defined, rfl⟩
    exact (Act.bind_value hdefinition).trans
      ((Act.bind_value hcontext).trans (Act.bind_value hbuild))

end Sentential.Generator
