import Sentential.Json.Reader

/-!
# Texts of the saved format

A text stands between double quotes. Its bytes are those of the file with the escapes replaced, and
they have to be UTF-8, which is looked at when the closing quote has been found.
-/
namespace Sentential.Json

def simpleEscape? (b : UInt8) : Option UInt8 :=
  if b = 0x22 ∨ b = 0x5C ∨ b = 0x2F then some b
  else if b = 0x62 then some 0x08
  else if b = 0x66 then some 0x0C
  else if b = 0x6E then some 0x0A
  else if b = 0x72 then some 0x0D
  else if b = 0x74 then some 0x09
  else none

def hexDigit? (b : UInt8) : Option Nat :=
  let n := b.toNat
  if 48 ≤ n ∧ n ≤ 57 then some (n - 48)
  else if 97 ≤ n ∧ n ≤ 102 then some (n - 87)
  else if 65 ≤ n ∧ n ≤ 70 then some (n - 55)
  else none

/-- The value of four hexadecimal digits. -/
def hexUnit? (a b c d : UInt8) : Option Nat := do
  pure (((((← hexDigit? a) * 16) + (← hexDigit? b)) * 16 + (← hexDigit? c)) * 16 + (← hexDigit? d))

/-- The first and the second half of a pair that stands for one character. -/
def isLeading (n : Nat) : Bool := 0xD800 ≤ n && n ≤ 0xDBFF

def isTrailing (n : Nat) : Bool := 0xDC00 ≤ n && n ≤ 0xDFFF

def utf8 (codePoint : Nat) : Bytes := (String.singleton (Char.ofNat codePoint)).toUTF8.toList

/-- The second half of a pair, with its escape in front. -/
def trailing : Bytes → Except FormatFault (Nat × Bytes)
  | [] => .error .truncated
  | b :: rest =>
    if b ≠ 0x5C then .error .malformed
    else match rest with
      | [] => .error .truncated
      | u :: rest =>
        if u ≠ 0x75 then .error .malformed
        else match rest with
          | a :: b :: c :: d :: rest =>
            match hexUnit? a b c d with
            | none => .error .malformed
            | some n => if isTrailing n then .ok (n, rest) else .error .malformed
          | _ => .error .truncated

/-- The bytes that an escape stands for; the backslash has been taken already. -/
def escaped : Bytes → Except FormatFault (Bytes × Bytes)
  | [] => .error .truncated
  | e :: rest =>
    if e ≠ 0x75 then
      match simpleEscape? e with
      | some b => .ok ([b], rest)
      | none => .error .malformed
    else match rest with
      | a :: b :: c :: d :: rest =>
        match hexUnit? a b c d with
        | none => .error .malformed
        | some n =>
          if isTrailing n then .error .malformed
          else if isLeading n then
            match trailing rest with
            | .error cause => .error cause
            | .ok (m, rest) => .ok (utf8 ((n - 0xD800) * 1024 + (m - 0xDC00) + 0x10000), rest)
          else .ok (utf8 n, rest)
      | _ => .error .truncated

theorem length_lt_of_trailing {bytes rest : Bytes} {n : Nat}
    (h : trailing bytes = .ok (n, rest)) : rest.length < bytes.length := by
  unfold trailing at h
  repeat' split at h
  all_goals simp_all
  all_goals omega

theorem length_lt_of_escaped {bytes out rest : Bytes}
    (h : escaped bytes = .ok (out, rest)) : rest.length < bytes.length := by
  unfold escaped at h
  repeat' split at h
  all_goals simp_all
  all_goals grind [→ length_lt_of_trailing]

/-- The bytes of a text up to its closing quote. -/
def unquote : Bytes → Except FormatFault (Bytes × Bytes)
  | [] => .error .truncated
  | b :: rest =>
    if b = 0x22 then .ok ([], rest)
    else if b = 0x5C then
      match _h : escaped rest with
      | .error cause => .error cause
      | .ok (out, after) =>
        match unquote after with
        | .error cause => .error cause
        | .ok (more, rest) => .ok (out ++ more, rest)
    else if b < 0x20 then .error .malformed
    else
      match unquote rest with
      | .error cause => .error cause
      | .ok (more, rest) => .ok (b :: more, rest)
termination_by bytes => bytes.length
decreasing_by
  all_goals simp only [List.length_cons]
  · have := length_lt_of_escaped ‹_›
    omega
  · omega

def Reader.quoted : Reader String := fun bytes =>
  match unquote bytes.tail with
  | .error cause => .error cause
  | .ok (out, rest) =>
    match String.fromUTF8? ⟨out.toArray⟩ with
    | some text => .ok (text, rest)
    | none => .error .malformed

/-- Passes over a text after its opening quote. Halves of pairs may stand alone in it. -/
def skipText : Bytes → Except FormatFault (Unit × Bytes)
  | [] => .error .truncated
  | 0x22 :: rest => .ok ((), rest)
  | [0x5C] => .error .truncated
  | 0x5C :: 0x75 :: a :: b :: c :: d :: rest =>
    if (hexUnit? a b c d).isSome then skipText rest else .error .malformed
  | 0x5C :: 0x75 :: _ => .error .truncated
  | 0x5C :: e :: rest => if (simpleEscape? e).isSome then skipText rest else .error .malformed
  | b :: rest => if b < 0x20 then .error .malformed else skipText rest

def Reader.skipQuoted : Reader Unit := fun bytes => skipText bytes.tail

end Sentential.Json
