import Sentential.Decimal.Layout
import Sentential.Text.Quoted

/-!
# Faults

What can go wrong when a grammar is loaded, a document is generated or a text is written. Each
fault has a message for the reader and a report that shows its parts.
-/
namespace Sentential

open Text

/-- Why a file could not be read or a sink refused a text. -/
inductive MediumFault where
  | notFound
  | notText
  | full
  deriving DecidableEq, Repr

/-- Why a text is no saved grammar: it breaks the rules of the format, it holds a value of the
wrong shape, or it ends too early. -/
inductive FormatFault where
  | malformed
  | mismatched
  | truncated
  deriving DecidableEq, Repr

inductive Fault where
  | medium (cause : MediumFault)
  | format (cause : FormatFault)
  | unknownProduction (language production : String)
  | duplicateProduction (production : String)
  | duplicateReplacement (production : String)
  | invalidRepetition (least : UInt32) (most : Option UInt32) (norm : UInt32)
  | invalidProbability (probability : Float)
  | endOfInput
  | unknownSet (name : String)
  | noAlternatives
  | invalidCodePoint (codePoint : UInt32)
  | unpredicted (location message : String)
  | inputClosed
  | replacement (production message : String)

def showLimit : Option UInt32 → String
  | none => "None"
  | some n => "Some(" ++ Numeral.decimal n.toNat ++ ")"

namespace MediumFault

def message : MediumFault → String
  | .notFound => "No such file or directory (os error 2)"
  | .notText => "stream did not contain valid UTF-8"
  | .full => "no storage space"

def report : MediumFault → String
  | .notFound =>
    "Os \x7b code: 2, kind: NotFound, message: \"No such file or directory\" \x7d"
  | .notText =>
    "Error \x7b kind: InvalidData, message: \"stream did not contain valid UTF-8\" \x7d"
  | .full => "Kind(StorageFull)"

end MediumFault

namespace FormatFault

def message : FormatFault → String
  | .malformed => "the text is malformed"
  | .mismatched => "a value does not fit"
  | .truncated => "the text ends too early"

end FormatFault

namespace Fault

def message : Fault → String
  | .medium cause => "I/O error: " ++ cause.message
  | .format cause => "invalid grammar json: " ++ cause.message
  | .unknownProduction language production =>
    "grammar for " ++ language ++ " does not contain a production for " ++ production
  | .duplicateProduction production => "duplicate definition of production " ++ production
  | .duplicateReplacement production =>
    "more than one replacement registered for production " ++ production
  | .invalidRepetition least most norm =>
    "invalid repetition of " ++ Numeral.decimal least.toNat ++ ".." ++ showLimit most ++
      " with norm " ++ Numeral.decimal norm.toNat
  | .invalidProbability probability =>
    "probability " ++ Decimal.Layout.plain.text probability ++ " is not within [0, 1]"
  | .endOfInput => "cannot generate end of input"
  | .unknownSet name => "unknown character set: " ++ name
  | .noAlternatives => "no alternatives are eligible for generation"
  | .invalidCodePoint codePoint =>
    "invalid code point: 0x" ++ Numeral.hexadecimal codePoint.toNat
  | .unpredicted location message => "unpredicted decision at " ++ location ++ ": " ++ message
  | .inputClosed => "input closed while waiting for a decision"
  | .replacement production message =>
    "replacement for " ++ production ++ " failed: " ++ message

/-- The name of a fault with its parts, in quotes where they are texts. -/
def report : Fault → String
  | .medium cause => "Io(" ++ cause.report ++ ")"
  | .format cause => "Json(" ++ Quoted.text cause.message ++ ")"
  | .unknownProduction language production =>
    "UnknownProduction \x7b language: " ++ Quoted.text language ++ ", production: " ++
      Quoted.text production ++ " \x7d"
  | .duplicateProduction production => "DuplicateProduction(" ++ Quoted.text production ++ ")"
  | .duplicateReplacement production => "DuplicateReplacement(" ++ Quoted.text production ++ ")"
  | .invalidRepetition least most norm =>
    "InvalidRepetition \x7b min: " ++ Numeral.decimal least.toNat ++ ", max: " ++ showLimit most ++
      ", norm: " ++ Numeral.decimal norm.toNat ++ " \x7d"
  | .invalidProbability probability =>
    "InvalidProbability(" ++ Decimal.Layout.report.text probability ++ ")"
  | .endOfInput => "EndOfInput"
  | .unknownSet name => "UnsupportedCharacterSet(" ++ Quoted.text name ++ ")"
  | .noAlternatives => "NoAlternatives"
  | .invalidCodePoint codePoint =>
    "InvalidCodePoint(" ++ Numeral.decimal codePoint.toNat ++ ")"
  | .unpredicted location message =>
    "Unpredicted \x7b location: " ++ Quoted.text location ++ ", message: " ++
      Quoted.text message ++ " \x7d"
  | .inputClosed => "InputClosed"
  | .replacement production message =>
    "Replacement \x7b production: " ++ Quoted.text production ++ ", message: " ++
      Quoted.text message ++ " \x7d"

end Fault

end Sentential
