import Sentential.Json.Reader

/-!
# Numbers of the saved format

A number is read in two steps. First its digits are taken apart; then its value is found from at
most nineteen or twenty significant digits and a power of ten, with one rounding for the significand
and one for each multiplication or division.
-/
namespace Sentential.Json

/-- The digits of a number without its sign. An exponent has a sign, true for a negative one. -/
structure Numeral where
  whole : List Nat
  fraction : Option (List Nat)
  exponent : Option (Bool × List Nat)
  deriving DecidableEq, Repr

def digit? (b : UInt8) : Option Nat :=
  if 48 ≤ b.toNat ∧ b.toNat ≤ 57 then some (b.toNat - 48) else none

/-- The digits at the front of a text and what follows them. -/
def takeDigits : Bytes → List Nat × Bytes
  | [] => ([], [])
  | b :: rest =>
    match digit? b with
    | some d =>
      match takeDigits rest with
      | (digits, rest) => (d :: digits, rest)
    | none => ([], b :: rest)

namespace Numeral

/-- One digit at least; `atEnd` is what is wrong where the text ends instead. -/
def someDigits (atEnd : FormatFault) : Reader (List Nat) := fun bytes =>
  match takeDigits bytes, bytes with
  | ([], _), [] => .error atEnd
  | ([], _), _ => .error .malformed
  | (digits, rest), _ => .ok (digits, rest)

/-- The whole part has no zero in front of other digits. -/
def readWhole (atEnd : FormatFault) : Reader (List Nat) := do
  match ← someDigits atEnd with
  | 0 :: _ :: _ => Reader.fail .malformed
  | digits => pure digits

def readFraction (atEnd : FormatFault) : Reader (Option (List Nat)) := fun bytes =>
  match bytes with
  | 0x2E :: rest => (some <$> someDigits atEnd) rest
  | _ => .ok (none, bytes)

def readExponent (atEnd : FormatFault) : Reader (Option (Bool × List Nat)) := fun bytes =>
  match bytes with
  | b :: rest =>
    if b = 0x65 ∨ b = 0x45 then
      match rest with
      | 0x2B :: rest => ((fun ds => some (false, ds)) <$> someDigits atEnd) rest
      | 0x2D :: rest => ((fun ds => some (true, ds)) <$> someDigits atEnd) rest
      | _ => ((fun ds => some (false, ds)) <$> someDigits atEnd) rest
    else .ok (none, bytes)
  | [] => .ok (none, bytes)

def read (atEnd : FormatFault) : Reader Numeral := do
  let whole ← readWhole atEnd
  let fraction ← readFraction atEnd
  let exponent ← readExponent atEnd
  pure ⟨whole, fraction, exponent⟩

/-- Appends digits to a number as long as it stays below `2 ^ 64`; gives the number and how many
digits were left over. -/
def gather : Nat → List Nat → Nat × Nat
  | n, [] => (n, 0)
  | n, d :: ds => if 10 * n + d < UInt64.size then gather (10 * n + d) ds else (n, ds.length + 1)

def powerOfTen (e : Nat) : Float := Float.ofScientific 1 false e

/-- Multiplies a significand by a power of ten. Large negative powers are taken in steps of
`10 ^ 308`; after three of them nothing is left. Fails where the number gets infinite. -/
def scale : Nat → Float → Int → Option Float
  | 0, f, _ => some f
  | fuel + 1, f, e =>
    if e.natAbs ≤ 308 then
      if 0 ≤ e then
        let g := f * powerOfTen e.natAbs
        if g.isInf then none else some g
      else some (f / powerOfTen e.natAbs)
    else if f == 0 then some f
    else if 0 ≤ e then none
    else scale fuel (f / powerOfTen 308) (e + 308)

/-- The magnitude of a number that has a fraction, an exponent or too many digits. -/
def magnitude? (n : Numeral) : Option Float :=
  let (whole, left) := gather 0 n.whole
  let fraction := n.fraction.getD []
  let (significand, ignored) := gather whole fraction
  let start : Int := (left : Int) - ((fraction.length - ignored : Nat) : Int)
  let scaled (e : Int) := scale 4 (Float.ofNat significand) e
  match n.exponent with
  | none => scaled start
  | some (negative, digits) =>
    let e : Nat := digits.foldl (fun e d => 10 * e + d) 0
    if e < 1 <<< 31 then scaled (if negative then start - (e : Int) else start + (e : Int))
    else if significand ≠ 0 ∧ !negative then none
    else some 0

/-- A number without fraction and exponent, if it has at most 64 bits. -/
def natural? (n : Numeral) : Option Nat :=
  if n.fraction.isNone ∧ n.exponent.isNone ∧ (gather 0 n.whole).2 = 0 then
    some (gather 0 n.whole).1
  else none

end Numeral

/-- What a number in a text stands for. Only whole numbers without a sign are natural. -/
inductive Number where
  | natural (n : Nat)
  | real (x : Float)

/-- A number at the front of a text that starts with a digit or a minus sign. -/
def Reader.number : Reader Number := do
  let negative := (← next) = 0x2D
  if negative then drop
  let n ← Numeral.read .truncated
  match n.natural?, n.magnitude? with
  | some n, _ => pure (if negative then .real (-Float.ofNat n) else .natural n)
  | none, some x => pure (.real (if negative then -x else x))
  | none, none => fail .malformed

def Reader.skipNumber : Reader Unit := do
  if (← next) = 0x2D then drop
  let _ ← Numeral.read .malformed

end Sentential.Json
