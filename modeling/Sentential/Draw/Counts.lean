import Sentential.Draw.Source
import Sentential.Grammar.Term

/-!
# Shaped draws

Counts and choices derived from the numbers of a source. Counts without a limit follow a Poisson
distribution and limited ones a binomial distribution, both with their peak near the norm of the
repetition.
-/
namespace Sentential

namespace Word

/-- The difference of two words, unless it is below zero. -/
def sub? (x y : UInt32) : Option UInt32 := if y ≤ x then some (x - y) else none

def add? (x y : UInt32) : Option UInt32 :=
  if x.toNat + y.toNat < UInt32.size then some (x + y) else none

end Word

namespace Source

variable {σ : Type}

/-- How many numbers a Poisson draw may take. -/
def poissonPatience : Nat := 1 <<< 40

/-- Multiplies numbers until the product is at most the limit, and counts all but the last. -/
def poissonFrom (s : Source σ) (limit : Float) : Nat → Float → Nat → σ → Option Nat × σ
  | 0, _, _, g => (none, g)
  | fuel + 1, p, k, g =>
    let (x, g) := s.unit g
    if p * x ≤ limit then (some k, g) else s.poissonFrom limit fuel (p * x) (k + 1) g

def poisson (s : Source σ) (mean : Float) (g : σ) : Option Nat × σ :=
  s.poissonFrom (Float.exp (-mean)) poissonPatience 1 0 g

/-- How many of `n` trials succeed, on top of those that did already. -/
def binomialFrom (s : Source σ) (p : Float) : Nat → Nat → σ → Nat × σ
  | 0, k, g => (k, g)
  | n + 1, k, g =>
    let (x, g) := s.unit g
    s.binomialFrom p n (if x < p then k + 1 else k) g

def binomial (s : Source σ) (n : Nat) (p : Float) (g : σ) : Nat × σ := s.binomialFrom p n 0 g

/-- A count of at least the given one, and most likely that one. -/
def countFrom (s : Source σ) (least : UInt32) (g : σ) : Option Nat × σ :=
  let (k, g) := s.poisson 0.5 g
  (k.map (least.toNat + ·), g)

/-- The norm of a repetition above its least count. -/
def excess (b : Bounds) : Nat := max b.norm.toNat b.least.toNat - b.least.toNat

/-- The peak of a limited count that can exceed its least by `n`. It is moved off both ends, so
that every count has some chance. -/
def peak (n excess : Nat) : Float :=
  let norm := Float.ofNat (min excess n)
  if norm == 0 then 0.5
  else if norm == Float.ofNat n then norm - (0.5 - Float.sqrt 0.02 / norm)
  else norm

def times (s : Source σ) (b : Bounds) (g : σ) : Option Nat × σ :=
  match b.most with
  | some most =>
    let n := most.toNat - b.least.toNat
    if n = 0 then (some b.least.toNat, g)
    else
      let (k, g) := s.binomial n (peak n (excess b) / Float.ofNat n) g
      (some (b.least.toNat + k), g)
  | none =>
    let (k, g) := s.poisson (Float.ofNat (excess b) + 0.5) g
    (k.map (b.least.toNat + ·), g)

/-- A limited count in the arithmetic of words. There is none where a difference or a sum is no
word. -/
def limitedInWords? (s : Source σ) (b : Bounds) (most : UInt32) (g : σ) : Option UInt32 × σ :=
  if most ≤ b.least then (some b.least, g)
  else
    match Word.sub? most b.least, Word.sub? (min (max b.norm b.least) most) b.least with
    | some n, some norm =>
      let (k, g) := s.binomial n.toNat (peak n.toNat norm.toNat / Float.ofNat n.toNat) g
      (Word.add? b.least (.ofNat k), g)
    | _, _ => (none, g)

/-- One of the alternatives by their bias, with one draw; nothing is drawn where there is none. -/
def biased (s : Source σ) (options : List Choice) (g : σ) : Option (Fin options.length) × σ :=
  if options.isEmpty then (none, g)
  else
    let (x, g) := s.unit g
    (Weighted.pick? options x, g)

end Source

end Sentential
