import Sentential.Document.Cursor
import Sentential.Grammar.Basic
import Sentential.Proofs.Flawless
import Sentential.Proofs.Stream

/-!
# Renaming productions

Other names for the productions, in terms, documents and faults. A name stands for nothing but itself:
renaming leaves the text of a document as it is, keeps terms apart from the names in them, and comes
before or after whatever is done to a document.
-/
namespace Sentential

variable {ρ : Type} (f : String → String)

namespace Term

mutual

/-- A term with other names in its references. -/
def rename : Term → Term
  | literal text => literal text
  | sequence terms => sequence (renameAll terms)
  | alternatives options => alternatives (renameChoices options)
  | reference production => reference (f production)
  | optional t p => optional (rename t) p
  | repetition t bounds => repetition (rename t) bounds
  | characters set => characters set
  | epsilon => epsilon

def renameAll : List Term → List Term
  | [] => []
  | t :: ts => rename t :: renameAll ts

def renameChoices : List Choice → List Choice
  | [] => []
  | ⟨t, weight⟩ :: rest => ⟨rename t, weight⟩ :: renameChoices rest

end

theorem renameAll_eq_map (ts : List Term) : renameAll f ts = ts.map (rename f) := by
  induction ts with
  | nil => rfl
  | cons t ts ih => rw [renameAll, ih, List.map_cons]

theorem renameChoices_eq_map (options : List Choice) :
    renameChoices f options = options.map fun c => ⟨c.item.rename f, c.weight⟩ := by
  induction options with
  | nil => rfl
  | cons c options ih => rw [renameChoices, ih, List.map_cons]

mutual

theorem parts_rename (t : Term) (rest : List Term) :
    (t.rename f).parts (rest.map (rename f)) = (t.parts rest).map (rename f) :=
  match t with
  | .literal _ => rfl
  | .sequence ts => congrArg (_ :: ·) (partsAll_rename ts rest)
  | .alternatives options => congrArg (_ :: ·) (partsChoices_rename options rest)
  | .reference _ => rfl
  | .optional t _ => congrArg (_ :: ·) (parts_rename t rest)
  | .repetition t _ => congrArg (_ :: ·) (parts_rename t rest)
  | .characters _ => rfl
  | .epsilon => rfl

theorem partsAll_rename (ts : List Term) (rest : List Term) :
    partsAll (renameAll f ts) (rest.map (rename f)) = (partsAll ts rest).map (rename f) :=
  match ts with
  | [] => rfl
  | t :: ts => by
    rw [renameAll, partsAll, partsAll_rename ts rest, parts_rename t]
    rfl

theorem partsChoices_rename (options : List Choice) (rest : List Term) :
    partsChoices (renameChoices f options) (rest.map (rename f)) =
      (partsChoices options rest).map (rename f) :=
  match options with
  | [] => rfl
  | ⟨t, weight⟩ :: options => by
    rw [renameChoices, partsChoices, partsChoices_rename options rest, parts_rename t]
    rfl

end

mutual

@[simp] theorem rename_id (t : Term) : t.rename id = t :=
  match t with
  | .literal _ => rfl
  | .sequence ts => congrArg sequence (renameAll_id ts)
  | .alternatives options => congrArg alternatives (renameChoices_id options)
  | .reference _ => rfl
  | .optional t p => congrArg (optional · p) (rename_id t)
  | .repetition t bounds => congrArg (repetition · bounds) (rename_id t)
  | .characters _ => rfl
  | .epsilon => rfl

theorem renameAll_id (ts : List Term) : renameAll id ts = ts :=
  match ts with
  | [] => rfl
  | t :: ts => by rw [renameAll, rename_id t, renameAll_id ts]

theorem renameChoices_id (options : List Choice) : renameChoices id options = options :=
  match options with
  | [] => rfl
  | ⟨t, weight⟩ :: options => by rw [renameChoices, rename_id t, renameChoices_id options]

end

end Term

namespace Node

mutual

/-- A document with other names of its trees and deferred nodes. -/
def rename : Node ρ → Node ρ
  | tree name children => tree (f name) (renameAll children)
  | literal text => literal text
  | deferred name payload => deferred (f name) payload

def renameAll : List (Node ρ) → List (Node ρ)
  | [] => []
  | n :: rest => rename n :: renameAll rest

end

theorem renameAll_eq_map (nodes : List (Node ρ)) : renameAll f nodes = nodes.map (rename f) := by
  induction nodes with
  | nil => rfl
  | cons n rest ih => rw [renameAll, ih, List.map_cons]

mutual

@[simp] theorem rename_id (n : Node ρ) : n.rename id = n :=
  match n with
  | .tree name children => congrArg (tree name) (renameAll_id children)
  | .literal _ => rfl
  | .deferred _ _ => rfl

theorem renameAll_id (nodes : List (Node ρ)) : renameAll id nodes = nodes :=
  match nodes with
  | [] => rfl
  | n :: rest => by rw [renameAll, rename_id n, renameAll_id rest]

end

mutual

/-- The text of a document has nothing to do with its names. -/
theorem sentence_rename (n : Node ρ) : (n.rename f).sentence = n.sentence :=
  match n with
  | .tree _ children => sentenceAll_rename children
  | .literal _ => rfl
  | .deferred _ _ => rfl

theorem sentenceAll_rename (nodes : List (Node ρ)) :
    sentenceAll (renameAll f nodes) = sentenceAll nodes :=
  match nodes with
  | [] => rfl
  | n :: rest => by
    rw [renameAll, sentenceAll, sentenceAll, sentence_rename n, sentenceAll_rename rest]

end

end Node

def Frame.rename (frame : Frame ρ) : Frame ρ :=
  ⟨f frame.name, frame.before.map (Node.rename f), frame.after.map (Node.rename f)⟩

namespace Cursor

/-- A document with other names, with the focus where it was. -/
def rename (c : Cursor ρ) : Cursor ρ :=
  ⟨f c.name, c.latest.map (Node.rename f), c.frames.map (Frame.rename f),
    c.outer.map (Node.rename f)⟩

theorem rename_root (name : String) : (root name : Cursor ρ).rename f = root (f name) := rfl

theorem rename_write (c : Cursor ρ) (text : String) :
    (c.write text).rename f = (c.rename f).write text := by
  have latest (nodes : List (Node ρ)) : (extendLatest text nodes).map (Node.rename f) =
      extendLatest text (nodes.map (Node.rename f)) := by
    rcases nodes with _ | ⟨_ | _ | _, _⟩ <;> rfl
  unfold write
  split
  · rfl
  · rw [rename, latest]
    rfl

theorem rename_enter (c : Cursor ρ) (name : String) :
    (c.enter name).rename f = (c.rename f).enter (f name) := rfl

theorem focus_rename (c : Cursor ρ) : (c.rename f).focus = c.focus.rename f := by
  rw [focus, focus, Node.rename, Node.renameAll_eq_map, List.map_reverse]
  rfl

theorem rename_leave (c : Cursor ρ) : c.leave.rename f = (c.rename f).leave := by
  obtain ⟨name, latest, frames, outer⟩ := c
  cases frames with
  | nil => rfl
  | cons frame frames =>
    have focus := focus_rename f ⟨name, latest, frame :: frames, outer⟩
    simp only [leave, rename, List.map_cons, Frame.rename, List.reverseAux_eq, List.map_append,
      List.map_reverse, ← focus]

theorem close_rename (n : Node ρ) (frames : List (Frame ρ)) :
    close (n.rename f) (frames.map (Frame.rename f)) = (close n frames).rename f := by
  induction frames generalizing n with
  | nil => rfl
  | cons frame frames ih =>
    rw [List.map_cons, close, close, ← ih, Node.rename, Node.renameAll_eq_map, List.reverseAux_eq,
      List.reverseAux_eq, List.map_append, List.map_cons, List.map_reverse]
    rfl

/-- Whatever is in focus, all of the document is renamed. -/
theorem document_rename (c : Cursor ρ) : (c.rename f).document = c.document.rename f := by
  rw [document, document, ← close_rename, focus_rename]
  rfl

end Cursor

/-- A fault that is about productions of other names. -/
def Fault.rename : Fault → Fault
  | .unknownProduction language production => .unknownProduction (f language) (f production)
  | .duplicateProduction production => .duplicateProduction (f production)
  | .duplicateReplacement production => .duplicateReplacement (f production)
  | .replacement production message => .replacement (f production) message
  | why => why

@[simp] theorem Fault.rename_id (why : Fault) : why.rename id = why := by cases why <;> rfl

end Sentential
