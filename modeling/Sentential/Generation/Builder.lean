import Sentential.Grammar.Basic
import Sentential.Policy.Basic
import Sentential.World.Log

/-!
# Building documents

A builder turns a term into document text, one step at a time. What is still to be done waits on a
list, next thing first: the rest of a sequence, the repetitions that are left, or the end of the
tree in focus. Neither long sequences nor deep references take more than the list.
-/
namespace Sentential

variable {ρ ω : Type}

/-- The rest of a sequence, a term as many times as are left, or the end of the tree in focus. -/
inductive Pending where
  | terms (terms : List Term)
  | times (term : Term) (count : Nat)
  | leave

/-- A term that is to be generated at the focus of a document, and what comes after it. -/
structure State (ρ : Type) where
  cursor : Cursor ρ
  term : Term
  pending : List Pending

def State.display (s : State ρ) : String :=
  "State\x7b" ++ s.cursor.focus.display ++ " @ " ++ s.term.display ++ "\x7d"

inductive Step (ρ : Type) where
  | next (state : State ρ)
  | done (cursor : Cursor ρ)

/-- Goes on with the first pending thing that has something left to do. -/
def resume : List Pending → Cursor ρ → Step ρ
  | [], c => .done c
  | .terms [] :: pending, c => resume pending c
  | .terms (t :: ts) :: pending, c => .next ⟨c, t, .terms ts :: pending⟩
  | .times _ 0 :: pending, c => resume pending c
  | .times t (n + 1) :: pending, c => .next ⟨c, t, .times t n :: pending⟩
  | .leave :: pending, c => resume pending c.leave

/-- How a run of steps ends. A run that fails keeps the state whose step failed, and one that is
stopped the state that would be next. -/
inductive Ending (ρ : Type) where
  | done (cursor : Cursor ρ)
  | failed (why : Fault) (state : State ρ)
  | stopped (state : State ρ)

/-- What building depends on. Productions with a payload are deferred: a node with that payload
stands for them in the document. -/
structure Builder (ρ ω : Type) where
  grammar : Grammar
  policy : Policy ρ ω
  deferral : String → Option ρ
  log : Log ω

namespace Builder

/-- A reference adds a deferred node, or a tree that the definition goes into. -/
def refer (b : Builder ρ ω) (name : String) (pending : List Pending) (c : Cursor ρ) :
    Except Fault (Step ρ) :=
  match b.deferral name with
  | some payload => .ok (resume pending (c.defer name payload))
  | none =>
    match b.grammar.definition name with
    | .ok definition => .ok (.next ⟨c.enter name, definition, .leave :: pending⟩)
    | .error why => .error why

/-- The character of a set. Only a set of all characters leaves something to decide. -/
def emit (b : Builder ρ ω) (set : CharacterSet) (c : Cursor ρ) : Act ω Char :=
  match set.meaning with
  | .ok (.only char) => pure char
  | .ok .any => b.policy c (.character set)
  | .ok .endOfInput => Act.fail .endOfInput
  | .error why => Act.fail why

def advance (b : Builder ρ ω) (c : Cursor ρ) (pending : List Pending) : Term → Act ω (Step ρ)
  | .literal text => pure (resume pending (c.write text))
  | .epsilon => pure (resume pending c)
  | .sequence terms => pure (resume (.terms terms :: pending) c)
  | .alternatives options => do
    let i ← b.policy c (.choice (eligible options))
    pure (.next ⟨c, (eligible options)[i].item, pending⟩)
  | .optional term probability => do
    let yes ← b.policy c (.inclusion term probability)
    pure (resume (.times term (if yes then 1 else 0) :: pending) c)
  | .repetition term bounds => do
    let count ← b.policy c (.count term bounds)
    pure (resume (.times term count :: pending) c)
  | .reference name => Act.ofExcept (b.refer name pending c)
  | .characters set => do
    let char ← b.emit set c
    pure (resume pending (c.writeChar char))

def step (b : Builder ρ ω) (s : State ρ) : Act ω (Step ρ) := do
  b.log.say .trace fun _ => s.display
  b.advance s.cursor s.pending s.term

/-- Takes steps until there is none left, at most as many as given. -/
def run (b : Builder ρ ω) : Nat → State ρ → ω → Ending ρ × ω
  | 0, s, w => (.stopped s, w)
  | n + 1, s, w =>
    match b.step s w with
    | (.value (.next t), w) => b.run n t w
    | (.value (.done c), w) => (.done c, w)
    | (.failed why, w) => (.failed why s, w)
    | (.unfinished, w) => (.stopped s, w)

/-- Generates a term at the focus of a document. -/
def build (b : Builder ρ ω) (budget : Nat) (c : Cursor ρ) (t : Term) : Act ω (Cursor ρ) := fun w =>
  match b.run budget ⟨c, t, []⟩ w with
  | (.done c, w) => (.value c, w)
  | (.failed why _, w) => (.failed why, w)
  | (.stopped _, w) => (.unfinished, w)

def define (b : Builder ρ ω) (budget : Nat) (name : String) (c : Cursor ρ) : Act ω (Cursor ρ) := do
  let definition ← Act.ofExcept (b.grammar.definition name)
  b.build budget c definition

/-- Makes the document of a production. -/
def tree (b : Builder ρ ω) (budget : Nat) (start : String) : Act ω (Node ρ) := do
  let c ← b.define budget start (.root start)
  pure c.document

end Builder

end Sentential
