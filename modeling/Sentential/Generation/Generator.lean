import Sentential.Generation.Builder
import Sentential.Generation.Replacement

/-!
# Generators

A generator makes documents of a grammar and writes them. Each document gets a context of its own,
which the replacements in it see whenever they run, also those in the expansions of others.
-/
namespace Sentential

/-- Every document gets a context of its own. The budget bounds the steps of a document and how deep
expansions may nest. -/
structure Generator (κ ω : Type) where
  grammar : Grammar
  policy : Policy κ ω
  replacements : List (Replacement κ ω)
  context : Act ω κ
  log : Log ω
  budget : Nat

namespace Generator

variable {κ ω : Type}

/-- The replacement of a production; the last one counts. -/
def replacement? (g : Generator κ ω) (name : String) : Option (Replacement κ ω) :=
  g.replacements.reverse.find? fun r => r.production = name

def builder (g : Generator κ ω) (context : κ) : Builder κ ω where
  grammar := g.grammar
  policy := g.policy
  deferral name := (g.replacement? name).map fun _ => context
  log := g.log

/-- Runs the replacement that a deferred node stands for. -/
def invoke (g : Generator κ ω) (sink : Sink ω) : Nat → Spot κ → Act ω Unit
  | 0, _ => Act.unfinished
  | n + 1, spot =>
    match spot.node with
    | .deferred name context =>
      match g.replacement? name with
      | some r =>
        r.run ⟨spot, r.production, context, sink,
          spot.expand (g.invoke sink n) sink r.production
            ((g.builder context).define g.budget r.production)⟩
      | none => pure ()
    | _ => pure ()

def write (g : Generator κ ω) (sink : Sink ω) (document : Node κ) : Act ω Unit :=
  Spot.write (g.invoke sink g.budget) sink ⟨document, []⟩

/-- Makes a document of a production. The context is only made when the production exists. -/
def document (g : Generator κ ω) (start : String) : Act ω (Node κ) := do
  g.log.say .debug fun _ => "generating " ++ g.grammar.language ++ " from " ++ start
  let definition ← Act.ofExcept (g.grammar.definition start)
  let context ← g.context
  let c ← (g.builder context).build g.budget (.root start) definition
  let document := c.document
  g.log.say .debug fun _ =>
    "generated tree with " ++ Text.Numeral.decimal document.childCount ++ " top level nodes"
  pure document

/-- Makes a document of a production and writes it. Nothing is written when that fails. -/
def sentence (g : Generator κ ω) (start : String) (sink : Sink ω) : Act ω Unit := do
  let document ← g.document start
  g.write sink document
  sink.flush

/-- Whether replacements fit a grammar: their productions exist and are replaced once. -/
def check (grammar : Grammar) : List String → List String → Except Fault Unit
  | _, [] => .ok ()
  | seen, name :: rest =>
    if !grammar.hasProduction name then .error (grammar.unknown name)
    else if seen.contains name then .error (.duplicateReplacement name)
    else check grammar (name :: seen) rest

/-- Announces a generator whose replacements fit its grammar. -/
def announce (g : Generator κ ω) : Act ω Unit := do
  Act.ofExcept (check g.grammar [] (g.replacements.map fun r => r.production))
  g.log.say .debug fun _ =>
    "built generator for " ++ g.grammar.language ++ " with " ++
      Text.Numeral.decimal g.replacements.length ++ " replacements"

end Generator

end Sentential
