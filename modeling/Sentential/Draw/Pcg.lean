/-!
# A permuted congruential generator

A state of 128 bits is multiplied and added to in every step; a draw folds its halves and rotates
the result by its highest bits. The whole sequence depends on the seed alone.
-/
namespace Sentential

structure Pcg where
  state : BitVec 128
  increment : BitVec 128
  deriving DecidableEq, Repr

namespace Pcg

def multiplier : BitVec 128 := 0x2360ED051FC65DA44385DF649FCCF645#128

def step (g : Pcg) : Pcg := { g with state := g.state * multiplier + g.increment }

/-- The 64 bits that a state stands for. -/
def output (g : Pcg) : BitVec 64 :=
  let folded := (g.state >>> 64).setWidth 64 ^^^ g.state.setWidth 64
  folded.rotateRight (g.state >>> 122).toNat

def draw (g : Pcg) : BitVec 64 × Pcg := (g.step.output, g.step)

/-- One step of the small generator that spreads a seed, and its 32 bits. -/
def spread (s : BitVec 64) : BitVec 32 × BitVec 64 :=
  let s := s * 6364136223846793005#64 + 11634580027462260723#64
  ((((s >>> 18) ^^^ s) >>> 27).setWidth 32 |>.rotateRight (s >>> 59).toNat, s)

/-- As many words as asked for, spread from a seed, with the first one lowest. -/
def spreadWords : Nat → BitVec 64 → Nat
  | 0, _ => 0
  | n + 1, s => (spread s).1.toNat + (spreadWords n (spread s).2 <<< 32)

/-- The generator of a seed. The increment is made odd, and the first state is a step away from
the seed. -/
def seeded (seed : UInt64) : Pcg :=
  let words := spreadWords 8 seed.toBitVec
  let increment := BitVec.ofNat 128 (words >>> 128) ||| 1#128
  step ⟨BitVec.ofNat 128 words + increment, increment⟩

end Pcg

end Sentential
