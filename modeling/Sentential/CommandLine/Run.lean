import Sentential.CommandLine.Options
import Sentential.Document.Outline
import Sentential.Draw.Source
import Sentential.Generation.Generator
import Sentential.Grammar.File
import Sentential.Policy.Chance
import Sentential.Policy.Dialogue
import Sentential.Policy.Journal

/-!
# Runs of the command line

A run loads a grammar, generates as many sentences as asked for, and prints each with the separator
behind it. What has been printed stays printed when a later sentence fails.
-/
namespace Sentential.CommandLine

/-- What a run reads and writes. -/
structure Console where
  source : Pcg
  input : Input
  out : Transcript
  err : Transcript
  book : LogBook
  line : PartialLine

namespace Console

def sourcePart : Part Console Pcg := ⟨Console.source, fun s c => { c with source := s },
  by intros; rfl, by intros; rfl, by intros; rfl⟩

def inputPart : Part Console Input := ⟨Console.input, fun s c => { c with input := s },
  by intros; rfl, by intros; rfl, by intros; rfl⟩

def outPart : Part Console Transcript := ⟨Console.out, fun s c => { c with out := s },
  by intros; rfl, by intros; rfl, by intros; rfl⟩

def errPart : Part Console Transcript := ⟨Console.err, fun s c => { c with err := s },
  by intros; rfl, by intros; rfl, by intros; rfl⟩

def bookPart : Part Console LogBook := ⟨Console.book, fun s c => { c with book := s },
  by intros; rfl, by intros; rfl, by intros; rfl⟩

def linePart : Part Console PartialLine := ⟨Console.line, fun s c => { c with line := s },
  by intros; rfl, by intros; rfl, by intros; rfl⟩

def log : Log Console := .book bookPart

/-- Only warnings and errors are kept. -/
def start (seed : UInt64) (input : Input) : Console :=
  ⟨.seeded seed, input, .empty, .empty, ⟨some .warn, []⟩, ⟨""⟩⟩

end Console

/-- Decisions are drawn; they are offered as defaults when somebody is asked, and logged when every
decision is to be traced. -/
def policy (o : Options) : Policy Unit Console :=
  let drawn : Policy Unit Console := .within Console.sourcePart (.chance Pcg.source)
  let decided : Policy Unit Console :=
    if o.interactive then
      .asking ⟨Console.inputPart, .transcript Console.errPart, Console.log⟩ (some drawn)
    else drawn
  if o.trace then .noted (.log Console.linePart Console.log .info) decided else decided

def generator (o : Options) (g : Grammar) : Generator Unit Console where
  grammar := g
  policy := policy o
  replacements := []
  context := pure ()
  log := Console.log
  budget := 1 <<< 62

def sentence (o : Options) (g : Grammar) : Act Console Unit := do
  let sink := Sink.transcript Console.outPart
  let document ← (generator o g).document (o.start.getD g.language)
  if o.tree then sink.append document.outline else (generator o g).write sink document
  sink.append o.separator

def sentences (o : Options) (g : Grammar) : Nat → Act Console Unit
  | 0 => pure ()
  | n + 1 => do
    sentence o g
    sentences o g n

def execute (o : Options) (file : Except Fault (List UInt8)) : Act Console Unit := do
  let g ← Grammar.loadFile Console.log o.grammar file
  (generator o g).announce
  Console.log.say .info fun _ =>
    "Loaded grammar for " ++ g.language ++ "; generating " ++ Text.Numeral.decimal o.count ++
      " from " ++ o.start.getD g.language
  sentences o g o.count

/-- How a run ends: its exit code, what it printed, and what it logged. A run is starved when it ended
because it waited for input that was not there. -/
structure Report where
  exit : UInt32
  out : String
  err : String
  log : List String
  starved : Bool
  deriving DecidableEq, Repr

def run (o : Options) (file : Except Fault (List UInt8)) (input : Input) (entropy : UInt64) :
    Report :=
  match execute o file (.start (o.seed.getD entropy) input) with
  | (.value (), c) => ⟨0, c.out.text, c.err.text, c.book.lines, false⟩
  | (.failed why, c) =>
    ⟨1, c.out.text, (c.err.append ("Error: " ++ why.report ++ "\n")).text, c.book.lines,
      why matches .inputClosed⟩
  | (.unfinished, c) => ⟨1, c.out.text, c.err.text, c.book.lines, false⟩

end Sentential.CommandLine
