import Sentential.Document.Forest
import Sentential.Generation.Builder

/-!
# Building through handles

The same steps without a focus that moves. The world holds the documents next to the world of the
policy, and trees change where they are. What is pending is a chain of links, each of which has a
handle of its own on the tree that it goes on in: whatever a handle leads to is what gets changed.
-/
namespace Sentential

variable {ρ ω : Type}

inductive Remaining where
  | terms (terms : List Term)
  | times (term : Term) (count : Nat)

/-- The next term, and what remains after it. -/
def Remaining.advance? : Remaining → Option (Term × Remaining)
  | terms [] => none
  | terms (t :: ts) => some (t, terms ts)
  | times _ 0 => none
  | times t (n + 1) => some (t, times t n)

/-- What remains of a sequence or of repetitions, with a handle on the tree that it goes on in. -/
structure Link where
  tree : Nat
  remaining : Remaining

/-- A term that is to be generated into the tree of a handle, and what comes after it. -/
structure Errand where
  tree : Nat
  term : Term
  links : List Link

/-- The errand that comes next; links that are used up are dropped. -/
def resolve : List Link → Option Errand
  | [] => none
  | link :: links =>
    match link.remaining.advance? with
    | some (t, remaining) => some ⟨link.tree, t, ⟨link.tree, remaining⟩ :: links⟩
    | none => resolve links

namespace Forest

def change (f : Forest ρ → Forest ρ) : Act (Forest ρ × ω) Unit := Act.modify fun v => (f v.1, v.2)

def next : Act (Forest ρ × ω) Nat := fun v => (.value v.1.handles.length, v)

/-- Looks at the tree of a handle. A handle that is on no tree has nothing to look at. -/
def look (tree : Nat) : Act (Forest ρ × ω) (Cursor ρ) := fun v =>
  match v.1.cursor? tree with
  | some c => (.value c, v)
  | none => (.unfinished, v)

end Forest

namespace Builder

def referAt (b : Builder ρ ω) (tree : Nat) (links : List Link) (name : String) :
    Act (Forest ρ × ω) (Option Errand) :=
  match b.deferral name with
  | some payload => do
    Forest.change fun f => f.defer tree name payload
    pure (resolve links)
  | none => do
    let definition ← Act.ofExcept (b.grammar.definition name)
    let child ← Forest.next
    Forest.change fun f => f.sprout tree name
    pure (some ⟨child, definition, links⟩)

/-- What the term of an errand leads to, with its tree as it looks now. -/
def advanceAt (b : Builder ρ ω) (c : Cursor ρ) (tree : Nat) (links : List Link) :
    Term → Act (Forest ρ × ω) (Option Errand)
  | .literal text => do
    Forest.change fun f => f.write tree text
    pure (resolve links)
  | .epsilon => pure (resolve links)
  | .sequence terms => pure (resolve (⟨tree, .terms terms⟩ :: links))
  | .alternatives options => do
    let i ← Part.snd.perform (b.policy c (.choice (eligible options)))
    pure (some ⟨tree, ((eligible options).get i).item, links⟩)
  | .optional term probability => do
    let yes ← Part.snd.perform (b.policy c (.inclusion term probability))
    pure (resolve (⟨tree, .times term (if yes then 1 else 0)⟩ :: links))
  | .repetition term bounds => do
    let count ← Part.snd.perform (b.policy c (.count term bounds))
    pure (resolve (⟨tree, .times term count⟩ :: links))
  | .reference name => b.referAt tree links name
  | .characters set => do
    let char ← Part.snd.perform (b.emit set c)
    Forest.change fun f => f.edit tree fun c => c.writeChar char
    pure (resolve links)

def work (b : Builder ρ ω) (e : Errand) : Act (Forest ρ × ω) (Option Errand) := do
  let c ← Forest.look e.tree
  Part.snd.perform (b.log.say .trace fun _ => (State.mk c e.term []).display)
  b.advanceAt c e.tree e.links e.term

/-- Takes steps until there is no errand left, at most as many as given. -/
def workAll (b : Builder ρ ω) : Nat → Option Errand → Act (Forest ρ × ω) Unit
  | _, none => pure ()
  | 0, some _ => Act.unfinished
  | n + 1, some e => do
    let next ← b.work e
    b.workAll n next

/-- Makes the document of a production in a forest, and gives a handle on it. -/
def raise (b : Builder ρ ω) (budget : Nat) (name : String) : Act (Forest ρ × ω) Nat := do
  let definition ← Act.ofExcept (b.grammar.definition name)
  let root ← Forest.next
  Forest.change fun f => f.plant name
  b.workAll budget (some ⟨root, definition, []⟩)
  pure root

end Builder

end Sentential
