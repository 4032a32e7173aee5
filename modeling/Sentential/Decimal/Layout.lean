import Sentential.Decimal.Shortest
import Sentential.Text.Numeral

/-!
# Layouts of decimals

How the shortest decimal of a number is written down: when positionally, when with an exponent,
and how whole numbers end. A layout is a record, and every format of this library names its own.
-/
namespace Sentential.Decimal

open Text

/-- The decisions of a number format. Numbers are written with an exponent when that of their leading
digit is below the least one or not below the most one, and a positive exponent with a plus sign or
without. Whole numbers end in a point and a zero or do not. A tie is between two equally close
decimals. -/
structure Layout where
  least : Option Int
  most : Option Int
  point : Bool
  plus : Bool
  tie : Tie

/-- Messages show numbers positionally, whatever their size. A tie goes up. -/
def Layout.plain : Layout := ⟨none, none, false, false, .upper⟩

/-- Reports show numbers from `1e-4` up to `1e16` positionally. A tie goes up. -/
def Layout.report : Layout := ⟨some (-4), some 16, true, false, .upper⟩

/-- Saved grammars show numbers from `1e-5` up to `1e16` positionally. A tie goes to the even
digit. -/
def Layout.saved : Layout := ⟨some (-5), some 16, true, true, .even⟩

def zeros (n : Nat) : String := String.ofList (List.replicate n '0')

/-- A positional decimal, with the given text after a whole number. -/
def positional (whole : String) (d : Digits) : String :=
  let text := Numeral.decimal d.units
  if 0 ≤ d.exponent then text ++ zeros d.exponent.toNat ++ whole
  else
    let places := (-d.exponent).toNat
    if places < text.length then
      String.ofList (text.toList.take (text.length - places)) ++ "." ++
        String.ofList (text.toList.drop (text.length - places))
    else "0." ++ zeros (places - text.length) ++ text

def scientific (plus : Bool) (d : Digits) (e : Int) : String :=
  let chars := (Numeral.decimal d.units).toList
  let fraction := chars.drop 1
  String.ofList (chars.take 1) ++ (if fraction.isEmpty then "" else "." ++ String.ofList fraction) ++
    "e" ++ (if e < 0 then "-" else if plus then "+" else "") ++ Numeral.decimal e.natAbs

def Layout.write (l : Layout) (d : Digits) : String :=
  let whole := if l.point then ".0" else ""
  let e := d.exponent + (Numeral.decimal d.units).length - 1
  let small := l.least.any fun least => d.units ≠ 0 ∧ e < least
  let large := l.most.any fun most => d.units ≠ 0 ∧ most ≤ e
  if small || large then scientific l.plus d e else positional whole d

/-- The text of a number: its sign and the shortest decimal that rounds to its magnitude. -/
def Layout.text (l : Layout) (x : Float) : String :=
  if x.isNaN then "NaN"
  else
    let sign := if x.toBits.toNat < 1 <<< 63 then "" else "-"
    if x.isInf then sign ++ "inf"
    else
      let b := Binary.ofBits x.toBits
      sign ++ l.write (if b.m = 0 then ⟨0, 0⟩ else shortest l.tie b)

end Sentential.Decimal
