import Sentential.Text.Numeral

/-!
# Options of the command line

Options have a long name and some a letter; letters can be joined behind one dash. A value follows
as the next argument, behind an equals sign, or right behind its letter. Only an attached value may
start with a dash. Each option can be given once, and there is one other argument, the grammar.
-/
namespace Sentential.CommandLine

open Text

/-- The grammar is a file, and `start` the production to start from in place of its language. A
trace logs every decision, an interactive run asks for it. Sentences are printed as outlines of their
`tree` or as texts, each with the separator behind it. -/
structure Options where
  grammar : String
  start : Option String
  count : Nat
  seed : Option UInt64
  trace : Bool
  interactive : Bool
  tree : Bool
  separator : String
  deriving DecidableEq, Repr

inductive Switch where
  | trace
  | interactive
  | tree
  deriving DecidableEq, Repr

inductive Setting where
  | start
  | count
  | seed
  | separator
  deriving DecidableEq, Repr

/-- One piece of a command line. -/
inductive Piece where
  | switch (s : Switch)
  | setting (s : Setting) (value : String)
  | operand (text : String)
  deriving DecidableEq, Repr

def longName? : String → Option (Switch ⊕ Setting)
  | "trace" => some (.inl .trace)
  | "interactive" => some (.inl .interactive)
  | "tree" => some (.inl .tree)
  | "start" => some (.inr .start)
  | "count" => some (.inr .count)
  | "seed" => some (.inr .seed)
  | "separator" => some (.inr .separator)
  | _ => none

def letter? : Char → Option (Switch ⊕ Setting)
  | 'i' => some (.inl .interactive)
  | 's' => some (.inr .start)
  | 'c' => some (.inr .count)
  | _ => none

/-- What an argument leaves open: nothing, or the value of its last option. -/
inductive Waiting where
  | nothing
  | value (s : Setting)

/-- The letters behind one dash. The first one with a value takes all that follows it. -/
def readLetters : List Char → Option (List Piece × Waiting)
  | [] => some ([], .nothing)
  | c :: rest =>
    match letter? c with
    | none => none
    | some (.inl s) => (readLetters rest).map fun (pieces, waiting) => (.switch s :: pieces, waiting)
    | some (.inr s) =>
      match rest with
      | [] => some ([], .value s)
      | '=' :: value => some ([.setting s (String.ofList value)], .nothing)
      | value => some ([.setting s (String.ofList value)], .nothing)

def readLong (text : List Char) : Option (List Piece × Waiting) :=
  let name := String.ofList (text.takeWhile (· ≠ '='))
  let value := match text.dropWhile (· ≠ '=') with
    | [] => none
    | _ :: value => some (String.ofList value)
  match longName? name, value with
  | some (.inl s), none => some ([.switch s], .nothing)
  | some (.inr s), some value => some ([.setting s value], .nothing)
  | some (.inr s), none => some ([], .value s)
  | _, _ => none

def isPlain (chars : List Char) : Bool :=
  match chars with
  | ['-'] => true
  | '-' :: _ => false
  | _ => true

def readPieces : Waiting → List String → Option (List Piece)
  | .nothing, [] => some []
  | .value _, [] => none
  | .value s, arg :: rest =>
    if isPlain arg.toList then (readPieces .nothing rest).map (.setting s arg :: ·) else none
  | .nothing, arg :: rest =>
    if isPlain arg.toList then (readPieces .nothing rest).map (.operand arg :: ·)
    else match arg.toList with
      | ['-', '-'] => some (rest.map .operand)
      | '-' :: '-' :: long =>
        match readLong long with
        | some (pieces, waiting) => (readPieces waiting rest).map (pieces ++ ·)
        | none => none
      | letters =>
        match readLetters (letters.drop 1) with
        | some (pieces, waiting) => (readPieces waiting rest).map (pieces ++ ·)
        | none => none

def switched (s : Switch) (pieces : List Piece) : Nat := pieces.count (.switch s)

def values (s : Setting) (pieces : List Piece) : List String :=
  pieces.filterMap fun
    | .setting t value => if t = s then some value else none
    | _ => none

def operands (pieces : List Piece) : List String :=
  pieces.filterMap fun
    | .operand text => some text
    | _ => none

def atMostOne : List String → Option (Option String)
  | [] => some none
  | [value] => some (some value)
  | _ => none

/-- An unsigned number of 64 bits. -/
def readWord (text : String) : Option Nat := (Numeral.read 10 UInt64.size text).toOption

/-- The options of a command line, unless it is used wrongly. -/
def Options.ofArguments (arguments : List String) : Option Options := do
  let pieces ← readPieces .nothing arguments
  let [grammar] := operands pieces | none
  if grammar.isEmpty then none
  if 1 < switched .trace pieces then none
  if 1 < switched .interactive pieces then none
  if 1 < switched .tree pieces then none
  let start ← atMostOne (values .start pieces)
  let count ← atMostOne (values .count pieces)
  let seed ← atMostOne (values .seed pieces)
  let separator ← atMostOne (values .separator pieces)
  let count ← readWord (count.getD "1")
  let seed ← match seed with
    | none => some none
    | some seed => (readWord seed).map some
  pure {
    grammar, start, count
    seed := seed.map UInt64.ofNat
    trace := 0 < switched .trace pieces
    interactive := 0 < switched .interactive pieces
    tree := 0 < switched .tree pieces
    separator := separator.getD "\n" }

end Sentential.CommandLine
