import Sentential.Document.Cursor

/-!
# Growing documents

A forest says what is added to a document, one node after another: text in pieces of any size, some
of them empty, and trees with forests of their own. A document keeps it coalesced, without empty
texts and with neighbouring texts joined. What it reads as is not changed by that.
-/
namespace Sentential

variable {ρ : Type}

namespace Node

/-- Puts text in front of coalesced nodes. -/
def joinText (text : String) : List (Node ρ) → List (Node ρ)
  | literal later :: rest => literal (text ++ later) :: rest
  | nodes => if text.isEmpty then nodes else literal text :: nodes

mutual

def coalesced : Node ρ → Node ρ
  | tree name children => tree name (coalesce children)
  | literal text => literal text
  | deferred name payload => deferred name payload

/-- A forest without empty texts, with neighbouring texts joined. -/
def coalesce : List (Node ρ) → List (Node ρ)
  | [] => []
  | n :: rest =>
    match n.text? with
    | some text => joinText text (coalesce rest)
    | none => coalesced n :: coalesce rest

end

@[simp] theorem coalesce_nil : coalesce ([] : List (Node ρ)) = [] := by rw [coalesce]

@[simp] theorem coalesce_literal (text : String) (rest : List (Node ρ)) :
    coalesce (literal text :: rest) = joinText text (coalesce rest) := by
  rw [coalesce, text?]

@[simp] theorem coalesce_tree (name : String) (children rest : List (Node ρ)) :
    coalesce (tree name children :: rest) = tree name (coalesce children) :: coalesce rest := by
  simp [coalesce, coalesced, text?]

@[simp] theorem coalesce_deferred (name : String) (payload : ρ) (rest : List (Node ρ)) :
    coalesce (deferred name payload :: rest) = deferred name payload :: coalesce rest := by
  simp [coalesce, coalesced, text?]

/-- Coalesced nodes behind the children of a tree, which are given last one first. -/
def onto (latest : List (Node ρ)) : List (Node ρ) → List (Node ρ)
  | literal text :: rest => rest.reverse ++ extendLatest text latest
  | nodes => nodes.reverse ++ latest

end Node

namespace Cursor

/-- Adds a node behind the children of the focused tree. -/
def add (c : Cursor ρ) : Node ρ → Cursor ρ
  | .literal text => c.write text
  | .tree name children => { c with latest := .tree name (Node.coalesce children) :: c.latest }
  | .deferred name payload => c.defer name payload

def grow (c : Cursor ρ) (forest : List (Node ρ)) : Cursor ρ := forest.foldl add c

theorem grow_cons (c : Cursor ρ) (n : Node ρ) (forest : List (Node ρ)) :
    c.grow (n :: forest) = (c.add n).grow forest := rfl

theorem grow_append (c : Cursor ρ) (f g : List (Node ρ)) :
    c.grow (f ++ g) = (c.grow f).grow g := List.foldl_append

/-- What a node adds to the children of a tree, which are given last one first. -/
def addLatest (latest : List (Node ρ)) : Node ρ → List (Node ρ)
  | .literal text => if text.isEmpty then latest else extendLatest text latest
  | .tree name children => .tree name (Node.coalesce children) :: latest
  | .deferred name payload => .deferred name payload :: latest

theorem add_eq (c : Cursor ρ) (n : Node ρ) :
    c.add n = ⟨c.name, addLatest c.latest n, c.frames, c.outer⟩ := by
  cases n with
  | literal text =>
    simp only [add, write, addLatest]
    split <;> rfl
  | tree name children => rfl
  | deferred name payload => rfl

theorem grow_eq (c : Cursor ρ) (forest : List (Node ρ)) :
    c.grow forest = ⟨c.name, forest.foldl addLatest c.latest, c.frames, c.outer⟩ := by
  induction forest generalizing c with
  | nil => rfl
  | cons n forest ih => rw [grow_cons, ih, add_eq, List.foldl_cons]

end Cursor

theorem extendLatest_extendLatest (s t : String) (latest : List (Node ρ)) :
    extendLatest t (extendLatest s latest) = extendLatest (s ++ t) latest := by
  cases latest with
  | nil => rfl
  | cons n rest => cases n <;> simp [extendLatest, String.append_assoc]

namespace Node

/-- Text in front of coalesced nodes comes before them. -/
theorem onto_joinText (latest nodes : List (Node ρ)) (text : String) :
    onto latest (joinText text nodes) = onto (Cursor.addLatest latest (.literal text)) nodes := by
  by_cases h : text.isEmpty
  · have h' : text = "" := String.isEmpty_iff.1 h
    subst h'
    cases nodes with
    | nil => rfl
    | cons n rest => cases n <;> simp [joinText, Cursor.addLatest]
  · cases nodes with
    | nil => simp [joinText, Cursor.addLatest, onto, h]
    | cons n rest =>
      cases n <;> simp [joinText, Cursor.addLatest, onto, h, extendLatest_extendLatest]

/-- A node that is no text does not touch the text before it. -/
theorem onto_cons {n : Node ρ} (h : n.text? = none) (latest nodes : List (Node ρ)) :
    onto latest (n :: nodes) = onto (n :: latest) nodes := by
  cases n with
  | literal text => cases h
  | tree name children => cases nodes with
    | nil => rfl
    | cons m rest => cases m <;> simp [onto, extendLatest]
  | deferred name payload => cases nodes with
    | nil => rfl
    | cons m rest => cases m <;> simp [onto, extendLatest]

/-- Adding the nodes of a forest one after another puts its coalesced form behind what is there. -/
theorem foldl_addLatest (latest forest : List (Node ρ)) :
    forest.foldl Cursor.addLatest latest = onto latest (coalesce forest) := by
  induction forest generalizing latest with
  | nil => simp [onto]
  | cons n forest ih =>
    rw [List.foldl_cons, ih]
    cases n with
    | literal text => rw [coalesce_literal, onto_joinText]
    | tree name children => rw [coalesce_tree, onto_cons rfl, Cursor.addLatest]
    | deferred name payload => rw [coalesce_deferred, onto_cons rfl, Cursor.addLatest]

theorem onto_nil (nodes : List (Node ρ)) : (onto [] nodes).reverse = nodes := by
  cases nodes with
  | nil => rfl
  | cons n rest => cases n <;> simp [onto, extendLatest]

end Node

namespace Cursor

@[simp] theorem grow_names (c : Cursor ρ) (forest : List (Node ρ)) :
    (c.grow forest).names = c.names := by rw [grow_eq]; rfl

@[simp] theorem enter_names (c : Cursor ρ) (name : String) :
    (c.enter name).names = c.names ++ [name] := by
  simp [names, enter]

theorem leave_grow_enter (c : Cursor ρ) (name : String) (forest : List (Node ρ)) :
    ((c.enter name).grow forest).leave = c.add (.tree name forest) := by
  simp only [grow_eq, add_eq, enter, leave, focus, addLatest, Node.foldl_addLatest, Node.onto_nil,
    List.reverseAux]

theorem document_grow {c : Cursor ρ} (h : c.latest = []) (h' : c.frames = [])
    (forest : List (Node ρ)) :
    (c.grow forest).document = .tree c.name (Node.coalesce forest) := by
  simp only [grow_eq, document, focus, h, h', close, Node.foldl_addLatest, Node.onto_nil]

end Cursor

end Sentential
