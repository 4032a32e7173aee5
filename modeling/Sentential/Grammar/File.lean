import Sentential.Grammar.Loaded
import Sentential.World.Log

/-!
# Grammar files

Loading grammars where there is a log: warnings go there, and so does the news of a loaded file.
-/
namespace Sentential

variable {α ω : Type}

def Inspected.report (i : Inspected α) (log : Log ω) : Act ω α := do
  i.warnings.forM fun w => log.say .warn fun _ => w.message
  Act.ofExcept i.result

/-- Loads the grammar of a file with some content. -/
def Grammar.loadFile (log : Log ω) (path : String) (content : Except Fault Json.Bytes) :
    Act ω Grammar := do
  let bytes ← Act.ofExcept content
  let g ← (Grammar.load bytes).report log
  log.say .debug fun _ =>
    "loaded grammar for " ++ g.language ++ " with " ++
      Text.Numeral.decimal g.productions.entries.length ++ " productions from " ++ path
  pure g

end Sentential
