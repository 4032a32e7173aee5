/-!
# Numerals

Writing a natural number in some radix and reading it back. Reading goes from left to right and
stops at the first character that is no digit or that takes the number out of range, so the flaw
that is reported is the first one in the text.
-/
namespace Sentential.Text.Numeral

/-- Why a text is not the numeral of a number in range. -/
inductive Flaw where
  | empty
  | invalidDigit
  | tooLarge
  deriving DecidableEq, Repr

def Flaw.message : Flaw → String
  | .empty => "cannot parse integer from empty string"
  | .invalidDigit => "invalid digit found in string"
  | .tooLarge => "number too large to fit in target type"

/-- The digit of a value below 36; letters are lower case. -/
def digitOf (value : Nat) : Char :=
  if value < 10 then Char.ofNat (48 + value) else Char.ofNat (87 + value)

/-- The value of a digit in some radix; letters count in both cases. -/
def valueOf? (radix : Nat) (c : Char) : Option Nat :=
  let n := c.toNat
  let value :=
    if 48 ≤ n ∧ n ≤ 57 then n - 48
    else if 97 ≤ n ∧ n ≤ 122 then n - 87
    else if 65 ≤ n ∧ n ≤ 90 then n - 55
    else radix
  if value < radix then some value else none

/-- The digits of a number, most significant first. A radix below two is read as two. -/
def digits (radix n : Nat) : List Char :=
  if n < max radix 2 then [digitOf n]
  else digits radix (n / max radix 2) ++ [digitOf (n % max radix 2)]
termination_by n
decreasing_by exact Nat.div_lt_self (by omega) (by omega)

def write (radix n : Nat) : String := String.ofList (digits radix n)

def decimal (n : Nat) : String := write 10 n

def hexadecimal (n : Nat) : String := write 16 n

/-- Continues a number with the digits of a text; every number on the way stays below `bound`. -/
def readDigits (radix bound : Nat) : Nat → List Char → Except Flaw Nat
  | n, [] => .ok n
  | n, c :: rest =>
    match valueOf? radix c with
    | none => .error .invalidDigit
    | some d =>
      if radix * n + d < bound then readDigits radix bound (radix * n + d) rest
      else .error .tooLarge

/-- Reads an unsigned numeral of a number below `bound`. One plus sign may stand in front of the
digits; a sign alone is no numeral. -/
def read (radix bound : Nat) (text : String) : Except Flaw Nat :=
  match text.toList with
  | [] => .error .empty
  | '+' :: [] => .error .invalidDigit
  | '+' :: rest => readDigits radix bound 0 rest
  | chars => readDigits radix bound 0 chars

end Sentential.Text.Numeral
