import Sentential.Json.Number
import Sentential.Json.Text

/-!
# Shapes of the saved format

Readers for the shapes that a saved grammar is made of: texts, numbers, lists, and records, which
are objects or the list of their fields in order. Brackets can only be opened while there is room;
what the members of a record that nobody knows hold is passed over without such a limit.
-/
namespace Sentential.Json

namespace Reader

variable {α σ : Type}

/-- A value comes next that is not what is asked for. As much of it is read as tells its shape. -/
def wrongShape : Reader α := do
  let b ← next
  if b = 0x6E then do drop; word [0x75, 0x6C, 0x6C]; fail .mismatched
  else if b = 0x74 then do drop; word [0x72, 0x75, 0x65]; fail .mismatched
  else if b = 0x66 then do drop; word [0x61, 0x6C, 0x73, 0x65]; fail .mismatched
  else if b = 0x2D ∨ (digit? b).isSome then do let _ ← number; fail .mismatched
  else if b = 0x22 then do let _ ← quoted; fail .mismatched
  else if b = 0x5B ∨ b = 0x7B then fail .mismatched
  else fail .malformed

def string : Reader String := do
  if (← next) = 0x22 then quoted else wrongShape

/-- The name of a member. Nothing but a text can stand in its place. -/
def name : Reader String := do
  if (← next) = 0x22 then quoted else fail .malformed

def numeric : Reader Number := do
  let b ← next
  if b = 0x2D ∨ (digit? b).isSome then number else wrongShape

/-- A count that fits into 32 bits. -/
def count : Reader UInt32 := do
  match ← numeric with
  | .natural n => if n < UInt32.size then pure (UInt32.ofNat n) else fail .mismatched
  | .real _ => fail .mismatched

def float : Reader Float := do
  match ← numeric with
  | .natural n => pure (Float.ofNat n)
  | .real x => pure x

def character : Reader Char := do
  match (← string).toList with
  | [c] => pure c
  | _ => fail .mismatched

def null : Reader Unit := do
  if (← next) = 0x6E then do drop; word [0x75, 0x6C, 0x6C] else wrongShape

def orNull (value : Reader α) : Reader (Option α) := do
  if (← peek) = some 0x6E then do drop; word [0x75, 0x6C, 0x6C]; pure none
  else some <$> value

/-- Whether a list goes on. A comma stands in front of every item but the first. -/
def another (first : Bool) : Reader Bool := do
  let b ← next
  if b = 0x5D then pure false
  else if first then pure true
  else if b = 0x2C then do
    drop
    if (← next) = 0x5D then fail .malformed else pure true
  else fail .malformed

/-- The bytes that come next. They bound how many items can follow, since each takes one at
least. -/
def ahead : Reader Bytes := fun bytes => .ok (bytes, bytes)

/-- The items up to the end of a list, at most one for each byte of a bound. -/
def items (item : Reader α) : Bytes → Bool → Reader (List α)
  | [], _ => fail .truncated
  | _ :: bound, first => do
    if ← another first then
      let v ← item
      let vs ← items item bound false
      pure (v :: vs)
    else do
      drop
      pure []

def list (room : Bool) (item : Reader α) : Reader (List α) := do
  if (← next) = 0x5B then
    if room then do
      drop
      items item (← ahead) true
    else fail .malformed
  else wrongShape

/-- Whether an object goes on. The name of a member has to follow a comma. -/
def anotherMember (first : Bool) : Reader Bool := do
  let b ← next
  if b = 0x7D then pure false
  else if first then if b = 0x22 then pure true else fail .malformed
  else if b = 0x2C then do
    drop
    if (← next) = 0x22 then pure true else fail .malformed
  else fail .malformed

/-- The members up to the end of an object, at most one for each byte of a bound; each is taken in
by its name, in front of its colon. -/
def members (take : String → σ → Reader σ) : Bytes → Bool → σ → Reader σ
  | [], _, _ => fail .truncated
  | _ :: bound, first, s => do
    if ← anotherMember first then
      let name ← quoted
      let s ← take name s
      members take bound false s
    else do
      drop
      pure s

def object (room : Bool) (take : String → σ → Reader σ) (start : σ) : Reader σ := do
  if (← next) = 0x7B then
    if room then do
      drop
      members take (← ahead) true start
    else fail .malformed
  else wrongShape

inductive Bracket where
  | list
  | object
  deriving DecidableEq, Repr

def skipName : Reader Unit := do
  if (← next) = 0x22 then do
    skipQuoted
    mark 0x3A
  else fail .malformed

mutual

/-- Passes over a value and all that is open around it. Every value and everything that follows one
takes a byte of the bound. -/
def skipValue : Bytes → List Bracket → Reader Unit
  | [], _ => fail .truncated
  | _ :: bound, enclosing => do
    let b ← next
    if b = 0x5B then do
      drop
      if (← next) = 0x5D then do drop; skipRest bound enclosing
      else skipValue bound (.list :: enclosing)
    else if b = 0x7B then do
      drop
      if (← next) = 0x7D then do drop; skipRest bound enclosing
      else do
        skipName
        skipValue bound (.object :: enclosing)
    else do
      if b = 0x6E then do drop; word [0x75, 0x6C, 0x6C]
      else if b = 0x74 then do drop; word [0x72, 0x75, 0x65]
      else if b = 0x66 then do drop; word [0x61, 0x6C, 0x73, 0x65]
      else if b = 0x2D ∨ (digit? b).isSome then skipNumber
      else if b = 0x22 then skipQuoted
      else fail .malformed
      skipRest bound enclosing

/-- Passes over what follows a value inside its brackets. -/
def skipRest : Bytes → List Bracket → Reader Unit
  | _, [] => pure ()
  | [], _ => fail .truncated
  | _ :: bound, .list :: enclosing => do
    let b ← next
    if b = 0x2C then do drop; skipValue bound (.list :: enclosing)
    else if b = 0x5D then do drop; skipRest bound enclosing
    else fail .malformed
  | _ :: bound, .object :: enclosing => do
    let b ← next
    if b = 0x2C then do
      drop
      skipName
      skipValue bound (.object :: enclosing)
    else if b = 0x7D then do drop; skipRest bound enclosing
    else fail .malformed

end

def skip : Reader Unit := do skipValue (← ahead) []

end Reader

/-- The place of a field in a record that is being read. -/
structure Slot (σ : Type) where
  name : String
  given : σ → Bool
  read : σ → Reader σ

namespace Reader

variable {σ : Type}

/-- The fields of a record that is written as a list; those at the end may be missing. -/
def positional : List (Slot σ) → Bool → σ → Reader σ
  | [], _, s => do
    mark 0x5D
    pure s
  | field :: fields, first, s => do
    if ← another first then
      let s ← field.read s
      positional fields false s
    else do
      drop
      pure s

/-- Takes in a member of a record by its name. A field can be given once; others are ignored. -/
def takeField (fields : List (Slot σ)) (name : String) (s : σ) : Reader σ :=
  match fields.find? fun field => field.name = name with
  | some field =>
    if field.given s then fail .mismatched
    else do
      mark 0x3A
      field.read s
  | none => do
    mark 0x3A
    skip
    pure s

def record (room : Bool) (fields : List (Slot σ)) (start : σ) : Reader σ := do
  let b ← next
  if b = 0x7B ∨ b = 0x5B then
    if room then do
      drop
      if b = 0x7B then members (takeField fields) (← ahead) true start
      else positional fields true start
    else fail .malformed
  else wrongShape

def required {α : Type} : Option α → Reader α
  | some v => pure v
  | none => fail .mismatched

/-- Runs a reader on a whole text, after which only white space may follow. -/
def run {α : Type} (reader : Reader α) (bytes : Bytes) : Except FormatFault α :=
  match reader bytes with
  | .error cause => .error cause
  | .ok (v, rest) => if rest.all isSpace then .ok v else .error .malformed

end Reader

end Sentential.Json
