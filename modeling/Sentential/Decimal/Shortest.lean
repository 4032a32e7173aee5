/-!
# Shortest decimals

The decimal with the fewest digits that lies closest to a binary fraction and is still nearer to it
than to its neighbours. Two decimals can be equally close; the caller says which one is meant then.
Everything is exact arithmetic on natural numbers.
-/
namespace Sentential.Decimal

/-- A decimal: a whole number of units of a power of ten. -/
structure Digits where
  units : Nat
  exponent : Int
  deriving DecidableEq, Repr

/-- Which of two neighbouring decimals stands for the value halfway between them. -/
inductive Tie where
  | upper
  | even
  deriving DecidableEq, Repr

/-- A positive binary fraction `m * 2 ^ q`, with the gap below it narrow when it is a power of two
above the smallest one. -/
structure Binary where
  m : Nat
  q : Int
  narrow : Bool
  deriving DecidableEq, Repr

/-- The magnitude of a finite number, read off its 64 bits. -/
def Binary.ofBits (bits : UInt64) : Binary :=
  let raw : Nat := bits.toNat % (1 <<< 63)
  let exponent : Nat := raw >>> 52
  let fraction : Nat := raw % (1 <<< 52)
  if exponent = 0 then ⟨fraction, -1074, false⟩
  else ⟨(1 <<< 52) + fraction, (exponent : Int) - 1075, decide (fraction = 0 ∧ 1 < exponent)⟩

/-- A value and the two ends of the interval that rounds to it, all in units of `1 / size`. -/
structure Interval where
  low : Nat
  value : Nat
  high : Nat
  size : Nat
  closed : Bool

/-- The ends lie halfway to the neighbours; they belong to the interval when `m` is even. -/
def Binary.interval (b : Binary) : Interval :=
  let up := 1 <<< (b.q - 2).toNat
  ⟨(4 * b.m - if b.narrow then 1 else 2) * up, 4 * b.m * up, (4 * b.m + 2) * up,
    1 <<< (2 - b.q).toNat, b.m % 2 == 0⟩

def Interval.scale (i : Interval) (k : Int) : Interval :=
  let up := Nat.pow 10 (-k).toNat
  ⟨i.low * up, i.value * up, i.high * up, i.size * Nat.pow 10 k.toNat, i.closed⟩

def Interval.contains (i : Interval) (n : Nat) : Bool :=
  if i.closed then i.low ≤ n * i.size && n * i.size ≤ i.high
  else i.low < n * i.size && n * i.size < i.high

/-- The whole number inside the interval that is nearest to the value, if there is one. Only the
two neighbours of the value need to be looked at. -/
def Interval.nearest? (tie : Tie) (i : Interval) : Option Nat :=
  let below := i.value / i.size
  let remainder := i.value % i.size
  let first :=
    if 2 * remainder < i.size then below
    else if i.size < 2 * remainder then below + 1
    else match tie with
      | .upper => below + 1
      | .even => below + below % 2
  let second := if first = below then below + 1 else below
  if i.contains first then some first
  else if i.contains second then some second
  else none

/-- How often ten has to be divided out of a number of at least one, or multiplied into a smaller
one, so that one digit is left in front of the point. -/
def magnitude (value size : Nat) : Int :=
  if size ≤ value then (down (value / size) (value / size) : Int) else - (up value (Nat.log2 size + 1) : Int)
where
  down (fuel n : Nat) : Nat :=
    match fuel with
    | 0 => 0
    | fuel + 1 => if n < 10 then 0 else down fuel (n / 10) + 1
  up (n : Nat) : Nat → Nat
    | 0 => 0
    | fuel + 1 => if size ≤ n then 0 else up (n * 10) fuel + 1

/-- Tries one digit more at a time, starting with the unit `10 ^ k`. -/
def search (tie : Tie) (i : Interval) : Nat → Int → Digits
  | 0, k => ⟨(i.scale k).value / (i.scale k).size, k⟩
  | fuel + 1, k =>
    match (i.scale k).nearest? tie with
    | some n => ⟨n, k⟩
    | none => search tie i fuel (k - 1)

def Digits.trim (d : Digits) : Digits := go d.units d
where
  go : Nat → Digits → Digits
    | 0, d => d
    | fuel + 1, d =>
      if d.units ≠ 0 ∧ d.units % 10 = 0 then go fuel ⟨d.units / 10, d.exponent + 1⟩ else d

/-- The shortest decimal of a positive binary fraction; seventeen digits always suffice. -/
def shortest (tie : Tie) (b : Binary) : Digits :=
  let i := b.interval
  (search tie i 17 (magnitude i.value i.size)).trim

end Sentential.Decimal
