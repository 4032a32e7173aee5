import Sentential.World.Act

/-!
# Logs

A log takes messages of some severity. The text of a message is only made when it is kept.
-/
namespace Sentential

inductive Level where
  | error
  | warn
  | info
  | debug
  | trace
  deriving DecidableEq, Repr

namespace Level

/-- More severe levels come first. -/
def rank : Level → Nat
  | error => 0
  | warn => 1
  | info => 2
  | debug => 3
  | trace => 4

def name : Level → String
  | error => "ERROR"
  | warn => "WARN"
  | info => "INFO"
  | debug => "DEBUG"
  | trace => "TRACE"

end Level

structure Log (ω : Type) where
  record : Level → (Unit → String) → ω → ω

/-- The messages that have been kept, the last one first, and the least severe level to keep;
without a level nothing is kept. -/
structure LogBook where
  threshold : Option Level
  entries : List (Level × String)
  deriving Repr

namespace LogBook

def keeps (b : LogBook) (level : Level) : Bool :=
  b.threshold.any fun threshold => level.rank ≤ threshold.rank

def record (level : Level) (text : Unit → String) (b : LogBook) : LogBook :=
  if b.keeps level then { b with entries := (level, text ()) :: b.entries } else b

/-- The kept messages in order, each behind the name of its level. -/
def lines (b : LogBook) : List String :=
  b.entries.reverse.map fun (level, text) => level.name ++ " " ++ text

end LogBook

namespace Log

variable {ω : Type}

/-- Keeps nothing. -/
def silent : Log ω := ⟨fun _ _ w => w⟩

/-- Keeps messages in a part of the world. -/
def book (p : Part ω LogBook) : Log ω := ⟨fun level text w => p.modify (.record level text) w⟩

def say (log : Log ω) (level : Level) (text : Unit → String) : Act ω Unit :=
  Act.modify (log.record level text)

end Log

end Sentential
