import Sentential.Document.Cursor

/-!
# Forests

Documents under construction, with handles on their trees. A handle stays on its tree, since
children are only ever added at the end.
-/
namespace Sentential

/-- The document that a tree is in, and the way to it. -/
structure Handle where
  document : Nat
  path : List Nat
  deriving DecidableEq, Repr

/-- Documents, and the handles in the order in which they were given. -/
structure Forest (ρ : Type) where
  documents : List (Node ρ)
  handles : List Handle

namespace Forest

variable {ρ : Type}

def empty : Forest ρ := ⟨[], []⟩

/-- A new document; the last handle is on it. -/
def plant (f : Forest ρ) (name : String) : Forest ρ :=
  ⟨f.documents ++ [.tree name []], f.handles ++ [⟨f.documents.length, []⟩]⟩

/-- The focus on the tree of a handle. -/
def cursor? (f : Forest ρ) (h : Nat) : Option (Cursor ρ) := do
  let handle ← f.handles[h]?
  let document ← f.documents[handle.document]?
  (← Cursor.ofNode? document).descend? handle.path

def spot? (f : Forest ρ) (h : Nat) : Option (Spot ρ) := do
  let handle ← f.handles[h]?
  let document ← f.documents[handle.document]?
  Spot.descend? ⟨document, []⟩ handle.path

def edit (f : Forest ρ) (h : Nat) (change : Cursor ρ → Cursor ρ) : Forest ρ :=
  match f.handles[h]?, f.cursor? h with
  | some handle, some c => { f with documents := f.documents.set handle.document (change c).document }
  | _, _ => f

def write (f : Forest ρ) (h : Nat) (text : String) : Forest ρ := f.edit h fun c => c.write text

def defer (f : Forest ρ) (h : Nat) (name : String) (payload : ρ) : Forest ρ :=
  f.edit h fun c => c.defer name payload

/-- A new tree at the end of another one; the last handle is on it. -/
def sprout (f : Forest ρ) (h : Nat) (name : String) : Forest ρ :=
  match f.handles[h]?, f.cursor? h with
  | some handle, some c =>
    ⟨f.documents.set handle.document (c.enter name).document,
      f.handles ++ [⟨handle.document, handle.path ++ [c.latest.length]⟩]⟩
  | _, _ => f

end Forest

end Sentential
