import Sentential.Draw.Counts
import Sentential.Policy.Basic

/-!
# Chance

The policy that draws every answer from a source. It does not look at the document.
-/
namespace Sentential

namespace Source

variable {σ : Type}

/-- How many characters in a row may turn out to be excluded. -/
def characterPatience : Nat := 1 <<< 40

def characterOf (s : Source σ) (set : CharacterSet) : Nat → Act σ Char
  | 0 => Act.unfinished
  | fuel + 1 => fun g =>
    match s.character g with
    | (.ok c, g) => if set.excludes c then s.characterOf set fuel g else (.value c, g)
    | (.error _, g) => (.unfinished, g)

def answer (s : Source σ) : (q : Question) → Act σ q.Answer
  | .choice options => fun g =>
    match s.biased options g with
    | (some i, g) => (.value i, g)
    | (none, g) => (.failed .noAlternatives, g)
  | .count _ bounds => fun g =>
    match s.times bounds g with
    | (some n, g) => (.value n, g)
    | (none, g) => (.unfinished, g)
  | .inclusion _ probability => fun g =>
    match s.unit g with
    | (x, g) => (.value (decide (x < probability)), g)
  | .character set => s.characterOf set characterPatience

end Source

/-- Draws every answer from a source. -/
def Policy.chance {ρ σ : Type} (s : Source σ) : Policy ρ σ := fun _ q => s.answer q

end Sentential
