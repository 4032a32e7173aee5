import Sentential.World.Log

/-!
# Sinks

A sink takes text at its end. Transcripts keep everything in memory, log sinks turn every finished
line into a message, and buffered sinks hand text on in larger pieces to a medium that may have no
space left.
-/
namespace Sentential

/-- Where text can be appended; either operation may fail. -/
structure Sink (ω : Type) where
  append : String → Act ω Unit
  flush : Act ω Unit

namespace Sink

variable {ω : Type}

def appendChar (s : Sink ω) (c : Char) : Act ω Unit := s.append (String.singleton c)

/-- The character of a code point, if it has one. -/
def appendCodePoint (s : Sink ω) (codePoint : UInt32) : Act ω Unit :=
  if codePoint.toNat.isValidChar then s.appendChar (Char.ofNat codePoint.toNat)
  else Act.fail (.invalidCodePoint codePoint)

def line (s : Sink ω) (text : String) : Act ω Unit := do
  s.append text
  s.appendChar '\n'

end Sink

/-- Text in memory, as the pieces that were appended, the last one first. -/
structure Transcript where
  pieces : List String
  deriving Repr

namespace Transcript

def empty : Transcript := ⟨[]⟩

def text (t : Transcript) : String := String.join t.pieces.reverse

def append (text : String) (t : Transcript) : Transcript := ⟨text :: t.pieces⟩

end Transcript

/-- Appends to a transcript in the world, which never fails. -/
def Sink.transcript {ω : Type} (p : Part ω Transcript) : Sink ω where
  append text := Act.modify (p.modify (.append text))
  flush := Act.pure ()

/-- The line that a log sink has not finished yet. -/
structure PartialLine where
  text : String
  deriving Repr

namespace PartialLine

/-- Cuts what is held and what is added after every line break: the finished lines, and the line
that goes on. -/
def cut (held : String) (added : List Char) : List String × String :=
  match added with
  | [] => ([], held)
  | c :: rest =>
    if c = '\n' then
      match cut "" rest with
      | (lines, last) => (held :: lines, last)
    else cut (held.push c) rest

end PartialLine

/-- Makes a message of every line; flushing ends a line that is not empty. -/
def Sink.log {ω : Type} (p : Part ω PartialLine) (log : Log ω) (level : Level) : Sink ω where
  append text w :=
    let (lines, rest) := PartialLine.cut (p.get w).text text.toList
    (.value (), lines.foldl (fun w line => log.record level (fun _ => line) w) (p.set ⟨rest⟩ w))
  flush w :=
    let held := (p.get w).text
    (.value (), if held.isEmpty then w else log.record level (fun _ => held) (p.set ⟨""⟩ w))

/-- A medium that may be limited, and the text that has not reached it yet. -/
structure Buffered where
  written : Transcript
  size : Nat
  limit : Option Nat
  waiting : Transcript
  waitingSize : Nat
  deriving Repr

namespace Buffered

/-- How many bytes are held back at most. -/
def capacity : Nat := 8192

def empty (limit : Option Nat) : Buffered := ⟨.empty, 0, limit, .empty, 0⟩

/-- One write to the medium, which is refused as a whole when there is no space for it. -/
def write (text : String) : Act Buffered Unit := fun b =>
  let size := b.size + text.utf8ByteSize
  if b.limit.all fun limit => size ≤ limit then
    (.value (), { b with written := b.written.append text, size })
  else (.failed (.medium .full), b)

/-- Writes what is waiting; what is refused goes on waiting. -/
def flush : Act Buffered Unit := fun b =>
  if b.waitingSize = 0 then (.value (), b)
  else match write b.waiting.text b with
    | (.value (), b) => (.value (), { b with waiting := .empty, waitingSize := 0 })
    | (result, b) => (result, b)

def hold (text : String) (b : Buffered) : Buffered :=
  { b with
    waiting := b.waiting.append text
    waitingSize := b.waitingSize + text.utf8ByteSize }

/-- Holds a text back where it fits behind what is waiting. Otherwise what is waiting is written
first, and a text that fills the buffer by itself is written at once. -/
def append (text : String) : Act Buffered Unit := fun b =>
  let size := text.utf8ByteSize
  let rest : Act Buffered Unit := fun b =>
    if size < capacity then (.value (), b.hold text) else write text b
  if size < capacity - b.waitingSize then (.value (), b.hold text)
  else if capacity - b.waitingSize < size then (flush >>= fun _ => rest) b
  else rest b

/-- The end of a sink: what is waiting is written if that is possible. -/
def close (b : Buffered) : Buffered := (flush b).2

end Buffered

def Sink.buffered {ω : Type} (p : Part ω Buffered) : Sink ω where
  append text := p.perform (Buffered.append text)
  flush := p.perform Buffered.flush

end Sentential
