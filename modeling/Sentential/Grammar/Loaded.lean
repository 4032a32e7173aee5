import Sentential.Grammar.Basic
import Sentential.Json.Shape

/-!
# Loading grammars

Reading the saved form back, and more liberally than it is written: the members of a record may come
in any order or as a list, and those that go without saying may be left out or spelled out. At most
127 brackets can be open at once.
-/
namespace Sentential

open Json

/-- The brackets that can be open at once in a saved grammar. -/
def bracketLimit : Nat := 127

namespace CharacterSet

structure Draft where
  name : Option String
  exclusions : Option (List Char)

def fields (room : Bool) : List (Slot Draft) :=
  [⟨"set", fun s => s.name.isSome, fun s => do
      let v ← Reader.string
      pure { s with name := some v }⟩,
    ⟨"exclusions", fun s => s.exclusions.isSome, fun s => do
      let v ← Reader.list room Reader.character
      pure { s with exclusions := some v }⟩]

def reader (depth : Nat) : Reader CharacterSet := do
  let s ← Reader.record (0 < depth) (fields (1 < depth)) ⟨none, none⟩
  let name ← Reader.required s.name
  pure ⟨name, s.exclusions.getD []⟩

end CharacterSet

namespace Term

/-- An alternative or an optional term while it is read. -/
structure NumberedDraft where
  term : Option Term
  number : Option Float

def numberedFields (number : String) (sub : Reader Term) : List (Slot NumberedDraft) :=
  [⟨"term", fun s => s.term.isSome, fun s => do
      let v ← sub
      pure { s with term := some v }⟩,
    ⟨number, fun s => s.number.isSome, fun s => do
      let v ← Reader.float
      pure { s with number := some v }⟩]

/-- A term with a number that has a default. -/
def numbered (room : Bool) (number : String) (default : Float) (sub : Reader Term) :
    Reader (Term × Float) := do
  let s ← Reader.record room (numberedFields number sub) ⟨none, none⟩
  let term ← Reader.required s.term
  pure (term, s.number.getD default)

structure RepetitionDraft where
  term : Option Term
  least : Option UInt32
  most : Option (Option UInt32)
  expected : Option (Option UInt32)

def repetitionFields (sub : Reader Term) : List (Slot RepetitionDraft) :=
  [⟨"term", fun s => s.term.isSome, fun s => do
      let v ← sub
      pure { s with term := some v }⟩,
    ⟨"min", fun s => s.least.isSome, fun s => do
      let v ← Reader.count
      pure { s with least := some v }⟩,
    ⟨"max", fun s => s.most.isSome, fun s => do
      let v ← Reader.orNull Reader.count
      pure { s with most := some v }⟩,
    ⟨"norm", fun s => s.expected.isSome, fun s => do
      let v ← Reader.orNull Reader.count
      pure { s with expected := some v }⟩]

def repetitionReader (room : Bool) (sub : Reader Term) : Reader Term := do
  let s ← Reader.record room (repetitionFields sub) ⟨none, none, none, none⟩
  let term ← Reader.required s.term
  pure (repetition term ⟨s.least.getD 0, s.most.getD none, s.expected.getD none⟩)

/-- What stands in the braces of a term: its kind and what the kind goes with. The terms in it are
read by `sub` behind one more bracket and by `inner` behind two. -/
def kind (depth : Nat) (sub inner : Reader Term) : Reader Term := do
  let name ← Reader.name
  let value : Reader Term ← match name with
    | "literal" => pure (literal <$> Reader.string)
    | "non_terminal" => pure (reference <$> Reader.string)
    | "epsilon" => pure ((fun _ => epsilon) <$> Reader.null)
    | "sequence" => pure (sequence <$> Reader.list (0 < depth) sub)
    | "alternatives" =>
      pure ((fun options => alternatives (options.map fun (t, w) => ⟨t, w⟩)) <$>
        Reader.list (0 < depth) (numbered (1 < depth) "bias" 1 inner))
    | "optional" =>
      pure ((fun (t, p) => optional t p) <$> numbered (0 < depth) "probability" 0.5 sub)
    | "repetition" => pure (repetitionReader (0 < depth) sub)
    | "characters" => pure (characters <$> CharacterSet.reader depth)
    | _ => Reader.fail .mismatched
  Reader.mark 0x3A
  value

/-- A term is a word or an object with one member; only the empty term is a word. -/
def enclosed (inside : Option (Reader Term)) : Reader Term := do
  let b ← Reader.next
  if b = 0x7B then
    match inside with
    | some inside => do
      Reader.drop
      let term ← inside
      Reader.mark 0x7D
      pure term
    | none => Reader.fail .malformed
  else if b = 0x22 then do
    if (← Reader.quoted) = "epsilon" then pure epsilon else Reader.fail .mismatched
  else Reader.fail .malformed

/-- Reads a term with the given number of brackets that can still be opened. -/
def reader : Nat → Reader Term
  | 0 => enclosed none
  | 1 => enclosed (some (kind 0 (Reader.fail .malformed) (Reader.fail .malformed)))
  | 2 => enclosed (some (kind 1 (reader 0) (Reader.fail .malformed)))
  | depth + 3 => enclosed (some (kind (depth + 2) (reader (depth + 1)) (reader depth)))

end Term

namespace Grammar

structure Draft where
  language : Option String
  productions : Option Catalogue

/-- The productions; of those with one name the last counts. -/
def productionsReader (depth : Nat) : Reader Catalogue :=
  Reader.object (0 < depth) (fun name c => do
    Reader.mark 0x3A
    let term ← Term.reader (depth - 1)
    pure (c.insert name term)) .empty

def fields (depth : Nat) : List (Slot Draft) :=
  [⟨"language", fun s => s.language.isSome, fun s => do
      let v ← Reader.string
      pure { s with language := some v }⟩,
    ⟨"productions", fun s => s.productions.isSome, fun s => do
      let v ← productionsReader depth
      pure { s with productions := some v }⟩]

def reader : Reader Grammar := do
  let s ← Reader.record (0 < bracketLimit) (fields (bracketLimit - 1)) ⟨none, none⟩
  let language ← Reader.required s.language
  let productions ← Reader.required s.productions
  pure ⟨language, productions⟩

/-- The grammar that a text holds, before it is inspected. -/
def read (bytes : Bytes) : Except FormatFault Grammar := reader.run bytes

def load (bytes : Bytes) : Inspected Grammar :=
  match read bytes with
  | .error cause => ⟨[], .error (.format cause)⟩
  | .ok g => g.inspected

end Grammar

def Term.read (bytes : Bytes) : Except FormatFault Term := (Term.reader bracketLimit).run bytes

end Sentential
