import Sentential.Document.Node

/-!
# Cursors

A document with one of its trees in focus. Text, trees and deferred nodes are added at the end of
the focused tree, in constant time, whatever its size and its depth. No literal is ever empty, and
no two literals stand side by side: text that follows text extends it.
-/
namespace Sentential

/-- A tree around the focus, without the child that leads there. The children before that child come
last one first. -/
structure Frame (ρ : Type) where
  name : String
  before : List (Node ρ)
  after : List (Node ρ)

/-- The focused tree has its latest child first, and the open trees around it are its frames,
innermost first. The outer trees are finished: the document is none of their children, it only knows
that it hangs below them. -/
structure Cursor (ρ : Type) where
  name : String
  latest : List (Node ρ)
  frames : List (Frame ρ)
  outer : List (Node ρ)

/-- Adds text behind the children of a tree, which are given last one first. -/
def extendLatest {ρ : Type} (text : String) : List (Node ρ) → List (Node ρ)
  | .literal before :: rest => .literal (before ++ text) :: rest
  | latest => .literal text :: latest

namespace Cursor

variable {ρ : Type}

def root (name : String) : Cursor ρ := ⟨name, [], [], []⟩

def detached (name : String) (outer : List (Node ρ)) : Cursor ρ := ⟨name, [], [], outer⟩

def focus (c : Cursor ρ) : Node ρ := .tree c.name c.latest.reverse

def parentName? (c : Cursor ρ) : Option String :=
  match c.frames with
  | frame :: _ => some frame.name
  | [] => c.outer.head?.bind Node.name?

def names (c : Cursor ρ) : List String :=
  (c.outer.reverse.map fun n => n.name?.getD "") ++ (c.frames.reverse.map Frame.name) ++ [c.name]

def path (c : Cursor ρ) : String := showPath c.names

/-- Adds text; the empty text adds nothing. -/
def write (c : Cursor ρ) (text : String) : Cursor ρ :=
  if text.isEmpty then c
  else
    let ⟨name, latest, frames, outer⟩ := c
    ⟨name, extendLatest text latest, frames, outer⟩

def writeChar (c : Cursor ρ) (char : Char) : Cursor ρ := c.write (String.singleton char)

def defer (c : Cursor ρ) (name : String) (payload : ρ) : Cursor ρ :=
  { c with latest := .deferred name payload :: c.latest }

/-- Adds an empty tree and moves the focus there. -/
def enter (c : Cursor ρ) (name : String) : Cursor ρ :=
  ⟨name, [], ⟨c.name, c.latest, []⟩ :: c.frames, c.outer⟩

/-- Moves the focus to the tree around; the outermost tree keeps it. -/
def leave (c : Cursor ρ) : Cursor ρ :=
  match c.frames with
  | [] => c
  | frame :: frames => ⟨frame.name, frame.after.reverseAux (c.focus :: frame.before), frames, c.outer⟩

/-- Puts a tree into the frames around it. -/
def close (node : Node ρ) : List (Frame ρ) → Node ρ
  | [] => node
  | frame :: frames =>
    close (.tree frame.name (frame.before.reverseAux (node :: frame.after))) frames

def document (c : Cursor ρ) : Node ρ := close c.focus c.frames

/-- Moves the focus to the child at some position, which has to be a tree. -/
def down? (c : Cursor ρ) (i : Nat) : Option (Cursor ρ) :=
  let children := c.latest.reverse
  match children[i]? with
  | some (.tree name grandchildren) =>
    some ⟨name, grandchildren.reverse,
      ⟨c.name, (children.take i).reverse, children.drop (i + 1)⟩ :: c.frames, c.outer⟩
  | _ => none

def descend? (c : Cursor ρ) : List Nat → Option (Cursor ρ)
  | [] => some c
  | i :: is => (c.down? i).bind fun d => descend? d is

/-- A finished tree with the focus at its root. -/
def ofNode? : Node ρ → Option (Cursor ρ)
  | .tree name children => some ⟨name, children.reverse, [], []⟩
  | _ => none

end Cursor

end Sentential
