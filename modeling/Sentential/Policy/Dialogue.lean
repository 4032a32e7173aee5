import Sentential.Policy.Basic
import Sentential.Text.Blank
import Sentential.World.Sink

/-!
# Dialogues

The policy that asks a person. Every question is shown as a prompt and answered by one line of
input; a line that does not answer it is rejected with a reason, and the question is asked again.
With another policy for the defaults, its answer is shown with the question and taken by a blank
line. That policy is asked once for each question, before any input is read.
-/
namespace Sentential

open Text

/-- The lines of an input that have not been read. A line that is not UTF-8 has no text. -/
abbrev Input := List (Option String)

namespace Input

def lineOfBytes (bytes : List UInt8) : Option String := String.fromUTF8? ⟨bytes.toArray⟩

/-- Cuts bytes after every line feed; `held` is the line so far, its last byte first. -/
def cut (held : List UInt8) : List UInt8 → Input
  | [] => if held.isEmpty then [] else [lineOfBytes held.reverse]
  | b :: rest => if b = 0x0A then lineOfBytes held.reverse :: cut [] rest else cut (b :: held) rest

def ofBytes (bytes : List UInt8) : Input := cut [] bytes

def ofString (text : String) : Input := ofBytes text.toUTF8.toList

end Input

inductive Rejection where
  | notANumber (flaw : Numeral.Flaw)
  | noAlternative (index : Nat)
  | outOfRange (times : Nat)
  | neitherYesNorNo
  | notACodePoint (n : Nat)
  | notInSet (c : Char) (set : String)
  deriving DecidableEq, Repr

def Rejection.message : Rejection → String
  | notANumber flaw => flaw.message
  | noAlternative index => "no alternative " ++ Numeral.decimal index
  | outOfRange times => Numeral.decimal times ++ " is out of range"
  | neitherYesNorNo => "expected yes or no"
  | notACodePoint n => "0x" ++ Numeral.hexadecimal n ++ " is not a valid code point"
  | notInSet c set => Quoted.char c ++ " is not in $" ++ set

/-- A number of 32 bits. -/
def readNumber (radix : Nat) (line : String) : Except Rejection Nat :=
  match Numeral.read radix UInt32.size line with
  | .ok n => .ok n
  | .error flaw => .error (.notANumber flaw)

/-- A single character stands for itself; otherwise a code point is expected, in hexadecimal
digits behind `0x` or in decimal digits. -/
def readCharacter (line : String) : Except Rejection Char :=
  match line.toList with
  | [c] => .ok c
  | chars => do
    let n ← match chars with
      | '0' :: 'x' :: digits => readNumber 16 (String.ofList digits)
      | _ => readNumber 10 line
    if n.isValidChar then .ok (Char.ofNat n) else .error (.notACodePoint n)

namespace Question

def read : (q : Question) → String → Except Rejection q.Answer
  | choice options, line => do
    let i ← readNumber 10 line
    if h : i < options.length then .ok ⟨i, h⟩ else .error (.noAlternative i)
  | count _ bounds, line => do
    let n ← readNumber 10 line
    if bounds.least.toNat ≤ n ∧ bounds.most.all fun most => n ≤ most.toNat then .ok n
    else .error (.outOfRange n)
  | inclusion _ _, line =>
    let lower := String.ofList (line.toList.map Char.toLower)
    if lower = "y" ∨ lower = "yes" then .ok true
    else if lower = "n" ∨ lower = "no" then .ok false
    else .error .neitherYesNorNo
  | character set, line => do
    let c ← readCharacter line
    if set.contains c then .ok c else .error (.notInSet c set.name)

/-- One line for each alternative, numbered from the given position on. -/
def showOptions (default : Option Nat) : Nat → List Choice → String
  | _, [] => ""
  | i, option :: rest =>
    Numeral.decimal i ++ ". " ++ option.item.display ++
      (if default = some i then " [default]\n" else "\n") ++ showOptions default (i + 1) rest

/-- What is shown behind the place of a question; the default is the answer of a blank line. -/
def prompt : (q : Question) → Option q.Answer → String
  | choice options, default =>
    ", choose one of:\n" ++ showOptions (default.map fun i => i.val) 0 options ++
      "Choose an alternative [0-" ++ Numeral.decimal (options.length - 1) ++ "]: "
  | count term bounds, default =>
    ", how many times should " ++ term.display ++ " be repeated? " ++
      (match bounds.most with
        | some most =>
          "[" ++ Numeral.decimal bounds.least.toNat ++ ".." ++ Numeral.decimal most.toNat ++ "]"
        | none => "[min " ++ Numeral.decimal bounds.least.toNat ++ "]") ++
      (match default with
        | some n => " [default=" ++ Numeral.decimal n ++ "]"
        | none => "") ++ ": "
  | inclusion term _, default =>
    ", should optional " ++ term.display ++ " be included? " ++
      (match default with
        | none => "[yn]: "
        | some true => "[Yn]: "
        | some false => "[yN]: ")
  | character _, default =>
    ", emit character" ++
      (match default with
        | some c => " [default: 0x" ++ Numeral.hexadecimal c.toNat ++ "]"
        | none => "") ++ ": "

end Question

/-- Where the input of a dialogue is, where its prompts go, and who is told of rejected lines. -/
structure Dialogue (ω : Type) where
  input : Part ω Input
  sink : Sink ω
  log : Log ω

namespace Dialogue

variable {ρ ω : Type}

def present (d : Dialogue ω) (path : String) (q : Question) (default : Option q.Answer) :
    Act ω Unit := do
  d.sink.append ("At " ++ path ++ q.prompt default)
  d.sink.flush

/-- The answer that a line gives, where a blank line takes the default. -/
def answer (q : Question) (default : Option q.Answer) (line : String) :
    Except (Option Rejection) q.Answer :=
  if line.isEmpty then
    match default with
    | some a => .ok a
    | none => .error none
  else
    match q.read line with
    | .ok a => .ok a
    | .error rejection => .error (some rejection)

/-- Says why a line was rejected; a blank one is no surprise. -/
def reject (d : Dialogue ω) (line : String) : Option Rejection → Act ω Unit
  | none => d.sink.line "Invalid input, no default choices available."
  | some rejection => do
    d.log.say .debug fun _ => "rejected input " ++ Quoted.text line ++ ": " ++ rejection.message
    d.sink.line ("Invalid input: " ++ rejection.message)

/-- Asks until a line answers the question. -/
def ask (d : Dialogue ω) (path : String) (q : Question) (default : Option q.Answer) :
    Input → Act ω q.Answer
  | [] => do
    d.present path q default
    Act.fail .inputClosed
  | none :: rest => do
    d.present path q default
    Act.modify (d.input.set rest)
    Act.fail (.medium .notText)
  | some line :: rest => do
    d.present path q default
    Act.modify (d.input.set rest)
    match answer q default (trim line) with
    | .ok a => pure a
    | .error why => do
      d.reject (trim line) why
      ask d path q default rest

end Dialogue

/-- Asks a person, who may fall back on the answers of another policy. -/
def Policy.asking {ρ ω : Type} (d : Dialogue ω) (defaults : Option (Policy ρ ω)) : Policy ρ ω :=
  fun c q => do
    let default ← match defaults with
      | some policy => some <$> policy c q
      | none => pure none
    fun w => d.ask c.path q default (d.input.get w) w

end Sentential
