import Sentential.Policy.Basic

/-!
# Scripts

A script names the answers in advance: terms to pick where they are among the alternatives,
characters to emit, and a count for each pair of bounds. A question that the script does not settle
in exactly one way is a fault. Answering changes nothing.
-/
namespace Sentential

open Text

/-- Counts are kept by bounds, the last one first. -/
structure Script where
  picks : List Term
  characters : List Char
  counts : List ((UInt32 × Option UInt32) × UInt32)

namespace Script

def empty : Script := ⟨[], [], []⟩

/-- Picks a term wherever it is among the alternatives. -/
def pick (s : Script) (t : Term) : Script := { s with picks := s.picks ++ [t] }

/-- Emits a character from every set that it belongs to. -/
def emit (s : Script) (c : Char) : Script := { s with characters := s.characters ++ [c] }

/-- Settles the count for repetitions with the given bounds; it replaces an earlier one. -/
def repeats (s : Script) (times least : UInt32) (most : Option UInt32) : Script :=
  { s with counts := ((least, most), times) :: s.counts }

/-- An optional term is a repetition from zero to one. -/
def includes (s : Script) (yes : Bool) : Script := s.repeats (if yes then 1 else 0) 0 (some 1)

/-- Why a script does not settle a question. -/
inductive Gap where
  | noAlternative
  | severalAlternatives
  | noCharacter (set : String)
  | severalCharacters (set : String)
  | noCount (least : UInt32) (most : Option UInt32)
  deriving DecidableEq, Repr

def Gap.message : Gap → String
  | noAlternative => "none of the alternatives was picked"
  | severalAlternatives => "more than one alternative was picked"
  | noCharacter set => "no character was picked from $" ++ set
  | severalCharacters set => "more than one character was picked from $" ++ set
  | noCount least most =>
    "repetition of Invocation \x7b min: " ++ Numeral.decimal least.toNat ++ ", max: " ++
      showLimit most ++ " \x7d"

/-- The positions of the picked terms among the alternatives. -/
def picked (s : Script) : (options : List Choice) → List (Fin options.length)
  | [] => []
  | option :: rest =>
    let later := (s.picked rest).map Fin.succ
    if s.picks.contains option.item then ⟨0, Nat.succ_pos _⟩ :: later else later

def count (s : Script) (least : UInt32) (most : Option UInt32) : Except Gap Nat :=
  match s.counts.lookup (least, most) with
  | some times => .ok times.toNat
  | none => .error (.noCount least most)

def settle (s : Script) : (q : Question) → Except Gap q.Answer
  | .choice options =>
    match s.picked options with
    | [] => .error .noAlternative
    | [i] => .ok i
    | _ => .error .severalAlternatives
  | .count _ bounds => s.count bounds.least bounds.most
  | .inclusion _ _ => (s.count 0 (some 1)).map fun times => decide (0 < times)
  | .character set =>
    match s.characters.filter set.contains with
    | [] => .error (.noCharacter set.name)
    | [c] => .ok c
    | _ => .error (.severalCharacters set.name)

end Script

/-- Answers by a script; a gap is reported with the place of the question. -/
def Policy.scripted {ρ ω : Type} (s : Script) : Policy ρ ω := fun c q =>
  match s.settle q with
  | .ok answer => Act.pure answer
  | .error gap => Act.fail (.unpredicted c.path gap.message)

end Sentential
