import Sentential.Fault

/-!
# Reading the saved format

A reader takes bytes from the front of a text and stops at the first thing that is wrong: the text
is malformed there, or it ends too early, or a value does not have the shape that is asked for. The
last of these is only found once the value, or as much of it as tells its shape, has been read.
-/
namespace Sentential.Json

abbrev Bytes := List UInt8

abbrev Reader (α : Type) := StateT Bytes (Except FormatFault) α

namespace Reader

variable {α : Type}

def fail (cause : FormatFault) : Reader α := fun _ => .error cause

/-- Whether the text may contain a byte between its tokens. -/
def isSpace (b : UInt8) : Bool := b == 0x20 || b == 0x0A || b == 0x09 || b == 0x0D

/-- The first byte after white space, which stays where it is. -/
def peek : Reader (Option UInt8) := fun bytes =>
  let rest := bytes.dropWhile isSpace
  .ok (rest.head?, rest)

/-- As `peek`, for a place where the text cannot end. -/
def next : Reader UInt8 := do
  match ← peek with
  | some b => pure b
  | none => fail .truncated

def drop : Reader Unit := fun bytes => .ok ((), bytes.tail)

/-- The rest of a word whose first byte has told which word it has to be. -/
def word : Bytes → Reader Unit
  | [], bytes => .ok ((), bytes)
  | _ :: _, [] => .error .truncated
  | expected :: more, b :: bytes => if b = expected then word more bytes else .error .malformed

def mark (expected : UInt8) : Reader Unit := do
  if (← next) = expected then drop else fail .malformed

end Reader

end Sentential.Json
