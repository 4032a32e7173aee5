import Sentential.Draw.Pcg
import Sentential.Grammar.Weighted

/-!
# Sources of random draws

A source makes uniform draws of four kinds and is changed by each of them. The source of a seed
uses a permuted congruential generator; the replay of recorded draws starts over at their end.
-/
namespace Sentential

/-- Why there is nothing to draw. A source is exhausted when too many draws in a row had to be thrown
away. -/
inductive Refusal where
  | emptyRange
  | emptyCollection
  | emptyCodePoints
  | exhausted
  deriving DecidableEq, Repr

def Refusal.message : Refusal → String
  | .emptyRange => "cannot sample empty range"
  | .emptyCollection => "cannot choose from an empty collection"
  | .emptyCodePoints => "cannot choose from an empty set of code points"
  | .exhausted => "no draw was acceptable"

/-- Draws a number from zero to below one, a position below a bound, a count between two others, both
included, or any character. -/
structure Source (σ : Type) where
  unit : σ → Float × σ
  index : Nat → σ → Except Refusal Nat × σ
  count : UInt32 → UInt32 → σ → Except Refusal UInt32 × σ
  character : σ → Except Refusal Char × σ

namespace Source

variable {σ : Type}

def choice {α : Type} (s : Source σ) (items : List α) (g : σ) : Except Refusal α × σ :=
  if items.isEmpty then (.error .emptyCollection, g)
  else match s.index items.length g with
    | (.ok i, g) => (items[i]?.elim (.error .exhausted) .ok, g)
    | (.error refusal, g) => (.error refusal, g)

def codePoint (s : Source σ) (chars : List Char) (g : σ) : Except Refusal Char × σ :=
  if chars.isEmpty then (.error .emptyCodePoints, g) else s.choice chars g

end Source

namespace Pcg

/-- How many draws in a row may be thrown away. -/
def patience : Nat := 65536

/-- The upper 53 bits of a draw as a fraction of one. -/
def unit (g : Pcg) : Float × Pcg :=
  let (bits, g) := g.draw
  (Float.ofNat (bits.toNat >>> 11) / 9007199254740992, g)

/-- Multiplies draws below `size` by a range until the low part of a product leaves no bias; the
high part is the result. -/
def within (size range zone : Nat) : Nat → Pcg → Except Refusal Nat × Pcg
  | 0, g => (.error .exhausted, g)
  | fuel + 1, g =>
    let (bits, g) := g.draw
    let product := bits.toNat % size * range
    if product % size ≤ zone then (.ok (product / size), g)
    else within size range zone fuel g

/-- A number of some width between two others. The range is shifted to the full width to find
which products to accept; the range of all numbers needs no choice. -/
def between (width low high : Nat) (g : Pcg) : Except Refusal Nat × Pcg :=
  if high < low then (.error .emptyRange, g)
  else
    let range := high - low + 1
    let size := 1 <<< width
    if range = size then
      let (bits, g) := g.draw
      (.ok (bits.toNat % size), g)
    else
      let zone := range <<< (width - 1 - Nat.log2 range) - 1
      match within size range zone patience g with
      | (.ok n, g) => (.ok (low + n), g)
      | (.error refusal, g) => (.error refusal, g)

def character : Nat → Pcg → Except Refusal Char × Pcg
  | 0, g => (.error .exhausted, g)
  | fuel + 1, g =>
    match between 32 0 0x10FFFF g with
    | (.ok n, g) => if n.isValidChar then (.ok (Char.ofNat n), g) else character fuel g
    | (.error refusal, g) => (.error refusal, g)

def source : Source Pcg where
  unit := unit
  index bound g := if bound = 0 then (.error .emptyRange, g) else between 64 0 (bound - 1) g
  count least most g :=
    match between 32 least.toNat most.toNat g with
    | (.ok n, g) => (.ok (UInt32.ofNat n), g)
    | (.error refusal, g) => (.error refusal, g)
  character := character patience

end Pcg

/-- Draws that are made again and again in the same order. -/
structure Recorded where
  units : List Float
  characters : List Char
  unitsLeft : List Float
  charactersLeft : List Char

namespace Recorded

def ofLists (units : List Float) (characters : List Char) : Recorded :=
  ⟨units, characters, units, characters⟩

/-- The next recorded number; zero where none is recorded. -/
def unit (r : Recorded) : Float × Recorded :=
  match r.unitsLeft with
  | x :: rest => (x, { r with unitsLeft := rest })
  | [] =>
    match r.units with
    | x :: rest => (x, { r with unitsLeft := rest })
    | [] => (0, r)

/-- The next recorded character; a question mark where none is recorded. -/
def character (r : Recorded) : Char × Recorded :=
  match r.charactersLeft with
  | c :: rest => (c, { r with charactersLeft := rest })
  | [] =>
    match r.characters with
    | c :: rest => (c, { r with charactersLeft := rest })
    | [] => ('?', r)

/-- The recorded number scaled to a range of some size, below its end. -/
def scaled (size : Nat) (r : Recorded) : Nat × Recorded :=
  let (x, r) := r.unit
  (min (x * Float.ofNat size).toUInt64.toNat (size - 1), r)

def source : Source Recorded where
  unit := unit
  index bound r :=
    let (n, r) := r.scaled bound
    (.ok n, r)
  count least most r :=
    let (n, r) := r.scaled (most.toNat + 1 - least.toNat)
    (.ok (least + UInt32.ofNat n), r)
  character r :=
    let (c, r) := r.character
    (.ok c, r)

end Recorded

end Sentential
