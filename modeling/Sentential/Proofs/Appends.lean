import Mathlib.Data.List.Nodup
import Sentential.Document.Digest
import Sentential.Document.Forest
import Sentential.Proofs.Places

/-!
# Series of appends

A document only depends on what each of its trees has received. Appends to different trees can be
made in either order, text can be added in pieces of any size, and what comes out is always tidy:
no text is empty, and no two texts stand side by side. Equal documents look the same to any hasher.

The only trace of the order is the numbering of handles: when two new trees are made the other way
round, later appends to them have to exchange their handles as well.
-/
namespace Sentential

variable {ρ σ : Type}

namespace Node

variable {eq : ρ → ρ → Bool} {h : Hasher ρ σ}

mutual

/-- A hasher that cannot tell equal payloads apart cannot tell equal nodes apart. -/
theorem feed_of_same (agree : ∀ p q, eq p q = true → h.payload p = h.payload q) {n m : Node ρ}
    (hsame : same eq n m = true) : feed h n = feed h m := by
  funext state
  match n, m with
  | tree name children, tree name' children' =>
    simp only [same, Bool.and_eq_true, beq_iff_eq] at hsame
    obtain ⟨rfl, hchildren⟩ := hsame
    rw [feed, feed, feedAll_of_sameAll agree hchildren]
  | literal text, literal text' =>
    simp only [same, beq_iff_eq] at hsame
    rw [hsame]
  | deferred name payload, deferred name' payload' =>
    simp only [same, Bool.and_eq_true, beq_iff_eq] at hsame
    obtain ⟨rfl, hpayload⟩ := hsame
    rw [feed, feed, agree payload payload' hpayload]
  | tree _ _, literal _ => simp [same] at hsame
  | tree _ _, deferred _ _ => simp [same] at hsame
  | literal _, tree _ _ => simp [same] at hsame
  | literal _, deferred _ _ => simp [same] at hsame
  | deferred _ _, tree _ _ => simp [same] at hsame
  | deferred _ _, literal _ => simp [same] at hsame

theorem feedAll_of_sameAll (agree : ∀ p q, eq p q = true → h.payload p = h.payload q)
    {ns ms : List (Node ρ)} (hsame : sameAll eq ns ms = true) : feedAll h ns = feedAll h ms := by
  funext state
  match ns, ms with
  | [], [] => rfl
  | n :: ns, m :: ms =>
    simp only [sameAll, Bool.and_eq_true] at hsame
    rw [feedAll, feedAll, feed_of_same agree hsame.1, feedAll_of_sameAll agree hsame.2]
  | [], _ :: _ => simp [sameAll] at hsame
  | _ :: _, [] => simp [sameAll] at hsame

end

end Node

/-- What can be appended to a tree. -/
inductive Call (ρ : Type) where
  | child (name : String)
  | literal (text : String)
  | codePoint (c : Char)
  | production (name : String) (payload : ρ)

structure Append (ρ : Type) where
  handle : Nat
  call : Call ρ

namespace Call

/-- The node that a call adds, if it is not text that goes on with a text before it. -/
def node : Call ρ → Node ρ
  | child name => .tree name []
  | literal text => .literal text
  | codePoint c => .literal (String.singleton c)
  | production name payload => .deferred name payload

/-- The handle that a call gives on a tree with so many children. -/
def given (on : Handle) (count : Nat) : Call ρ → List Handle
  | child _ => [⟨on.document, on.path ++ [count]⟩]
  | _ => []

def givesHandle : Call ρ → Bool
  | child _ => true
  | _ => false

theorem given_eq_nil {call : Call ρ} (h : call.givesHandle = false) (on : Handle) (count : Nat) :
    call.given on count = [] := by
  cases call with
  | child name => cases h
  | _ => rfl

theorem exists_given {call : Call ρ} (h : call.givesHandle = true) (on : Handle) (count : Nat) :
    ∃ k, call.given on count = [k] := by
  cases call with
  | child name => exact ⟨_, rfl⟩
  | _ => cases h

theorem node_children (call : Call ρ) : call.node.children = [] := by
  cases call <;> rfl

end Call

/-- The position of the document and then those in it. -/
def Handle.place (h : Handle) : List Nat := h.document :: h.path

theorem Handle.place_inj {h k : Handle} : h.place = k.place ↔ h = k := by
  cases h
  cases k
  simp [place]

/-- A call gives no handle, or one on the tree that it adds. -/
theorem Call.given_cases (call : Call ρ) (on : Handle) (count : Nat) :
    call.given on count = [] ∨ ∃ name k, call.node = .tree name [] ∧
      k.place = on.place ++ [count] ∧ call.given on count = [k] := by
  cases call with
  | child name =>
    right
    exact ⟨name, ⟨on.document, on.path ++ [count]⟩, rfl, rfl, rfl⟩
  | literal text => exact .inl rfl
  | codePoint c => exact .inl rfl
  | production name payload => exact .inl rfl

namespace Cursor

theorem add_document (c : Cursor ρ) (n : Node ρ) :
    (c.add n).document = close (.tree c.name (Node.adding n c.latest.reverse)) c.frames := by
  simp [add_eq, document, focus, Node.adding]

/-- A tree that is entered has been added. -/
theorem enter_document (c : Cursor ρ) (name : String) :
    (c.enter name).document = (c.add (.tree name [])).document := by
  simp [enter, add, document, focus, close, List.reverseAux_eq]

end Cursor

namespace Forest

variable {f g : Forest ρ} {h : Nat} {on : Handle} {children : List (Node ρ)}

/-- All documents as the children of one tree, so that a document is a place like any other. -/
def whole (f : Forest ρ) : Node ρ := .tree "" f.documents

theorem eq_of_whole (hwhole : f.whole = g.whole) (hhandles : f.handles = g.handles) : f = g := by
  cases f
  cases g
  cases hwhole
  cases hhandles
  rfl

def perform (f : Forest ρ) (a : Append ρ) : Forest ρ :=
  match a.call with
  | .child name => f.sprout a.handle name
  | .literal text => f.write a.handle text
  | .codePoint c => f.edit a.handle fun tree => tree.writeChar c
  | .production name payload => f.defer a.handle name payload

def performAll (f : Forest ρ) (appends : List (Append ρ)) : Forest ρ := appends.foldl perform f

/-- Documents without anything in them. -/
def planted (roots : List String) : Forest ρ := roots.foldl plant empty

theorem cursor?_eq (hon : f.handles[h]? = some on) :
    f.cursor? h = (f.documents[on.document]?.bind Cursor.ofNode?).bind
      fun c => c.descend? on.path := by
  simp [cursor?, hon, Option.bind_assoc]

/-- What a handle leads to: nothing and no tree, or the focus on its tree. -/
theorem cursor?_cases (hon : f.handles[h]? = some on) :
    (f.cursor? h = none ∧ f.whole.childrenAt? on.place = none) ∨
      ∃ c, f.cursor? h = some c ∧ f.whole.childrenAt? on.place = some c.latest.reverse ∧
        ∀ change, Node.tree "" (f.documents.set on.document
            (Cursor.close (.tree c.name (change c.latest.reverse)) c.frames)) =
          f.whole.alterAt change on.place := by
  have hplaces : f.whole.childrenAt? on.place =
      f.documents[on.document]?.bind (Node.childrenAt? on.path) := rfl
  rw [cursor?_eq hon, hplaces]
  cases hdocument : f.documents[on.document]? with
  | none =>
    left
    exact ⟨rfl, rfl⟩
  | some document =>
    cases document with
    | literal text =>
      left
      exact ⟨rfl, by cases on.path <;> rfl⟩
    | deferred name payload =>
      left
      exact ⟨rfl, by cases on.path <;> rfl⟩
    | tree name children =>
      have hfocus : (Cursor.mk name children.reverse [] []).focus = .tree name children := by
        simp [Cursor.focus]
      rcases Cursor.descend?_cases ⟨name, children.reverse, [], []⟩ on.path with
        ⟨hnone, hplace⟩ | ⟨c, hsome, hplace, hclose⟩
      · left
        rw [hfocus] at hplace
        exact ⟨hnone, hplace⟩
      · right
        rw [hfocus] at hplace hclose
        refine ⟨c, hsome, hplace, fun change => ?_⟩
        obtain ⟨before, after, hsplit, hlength⟩ := Node.exists_of_getElem? hdocument
        rw [hclose, whole, Handle.place, hsplit, ← hlength, Node.alterAt_tree]
        simp [Cursor.close]

/-- What an append does to the tree of a handle, and which handle it gives. -/
theorem perform_eq {a : Append ρ} (hon : f.handles[a.handle]? = some on)
    (hplace : f.whole.childrenAt? on.place = some children) :
    (f.perform a).whole = f.whole.alterAt (Node.adding a.call.node) on.place ∧
      (f.perform a).handles = f.handles ++ a.call.given on children.length := by
  rcases cursor?_cases hon with ⟨-, hnone⟩ | ⟨c, hc, hsome, hset⟩
  · rw [hplace] at hnone
    cases hnone
  · rw [hplace] at hsome
    cases hsome
    have hadd : ∀ n, (f.edit a.handle fun c => c.add n).whole =
        f.whole.alterAt (Node.adding n) on.place := by
      intro n
      simp only [edit, hon, hc, whole]
      rw [Cursor.add_document]
      exact hset _
    have hhandles : ∀ change, (f.edit a.handle change).handles = f.handles ++ [] := by
      intro change
      simp [edit, hon, hc]
    obtain ⟨handle, call⟩ := a
    cases call with
    | literal text => exact ⟨hadd (.literal text), hhandles _⟩
    | codePoint char => exact ⟨hadd (.literal (String.singleton char)), hhandles _⟩
    | production name payload => exact ⟨hadd (.deferred name payload), hhandles _⟩
    | child name =>
      simp only [perform, sprout, hon, hc, whole]
      rw [Cursor.enter_document, Cursor.add_document]
      exact ⟨hset _, by simp [Call.given]⟩

/-- The handle does not lead to a tree. -/
def Loose (f : Forest ρ) (h : Nat) : Prop :=
  ∀ on, f.handles[h]? = some on → f.whole.childrenAt? on.place = none

theorem loose_or_exists (f : Forest ρ) (h : Nat) :
    f.Loose h ∨ ∃ on children, f.handles[h]? = some on ∧
      f.whole.childrenAt? on.place = some children := by
  by_cases hloose : f.Loose h
  · exact .inl hloose
  · simp only [Loose, not_forall] at hloose
    obtain ⟨on, hon, hplace⟩ := hloose
    obtain ⟨children, hplace⟩ := Option.ne_none_iff_exists'.1 hplace
    exact .inr ⟨on, children, hon, hplace⟩

theorem Loose.perform {a : Append ρ} (hloose : f.Loose a.handle) : f.perform a = f := by
  have hnone : f.handles[a.handle]? = none ∨ f.cursor? a.handle = none := by
    cases hon : f.handles[a.handle]? with
    | none => exact .inl rfl
    | some on =>
      rcases cursor?_cases hon with ⟨hnone, -⟩ | ⟨c, -, hplace, -⟩
      · exact .inr hnone
      · rw [hloose on hon] at hplace
        cases hplace
  have hedit : ∀ change, f.edit a.handle change = f := by
    intro change
    unfold edit
    rcases hnone with hnone | hnone <;> simp [hnone]
  obtain ⟨handle, call⟩ := a
  cases call with
  | literal text => exact hedit _
  | codePoint char => exact hedit _
  | production name payload => exact hedit _
  | child name =>
    simp only [Forest.perform, sprout]
    rcases hnone with hnone | hnone <;> simp [hnone]

/-- Handles are on different trees. -/
structure Sturdy (f : Forest ρ) : Prop where
  resolves : ∀ on ∈ f.handles, (f.whole.childrenAt? on.place).isSome
  distinct : f.handles.Nodup

theorem Sturdy.exists_children (hf : f.Sturdy) (hon : f.handles[h]? = some on) :
    ∃ children, f.whole.childrenAt? on.place = some children :=
  Option.isSome_iff_exists.1 (hf.resolves on (List.mem_of_getElem? hon))

/-- Handles stay on different trees when a node is added and, if it is a tree, gets a handle. -/
theorem Sturdy.of_adding (hf : f.Sturdy) {p : List Nat} {n : Node ρ} {given : List Handle}
    (hp : f.whole.childrenAt? p = some children)
    (hwhole : g.whole = f.whole.alterAt (Node.adding n) p)
    (hhandles : g.handles = f.handles ++ given)
    (hgiven : given = [] ∨ ∃ name k, n = .tree name [] ∧
      Handle.place k = p ++ [children.length] ∧ given = [k]) : g.Sturdy := by
  have hkept : ∀ k ∈ f.handles, (g.whole.childrenAt? k.place).isSome := by
    intro k hk
    rw [hwhole]
    exact Node.childrenAt?_alterAt_isSome (Node.adding_steady n) p (hf.resolves k hk)
  rcases hgiven with rfl | ⟨name, k, rfl, hk, rfl⟩
  · rw [List.append_nil] at hhandles
    exact ⟨hhandles ▸ hkept, hhandles ▸ hf.distinct⟩
  · have hnew : (g.whole.childrenAt? k.place).isSome := by
      have hgrown : g.whole.childrenAt? p = some (children ++ [.tree name []]) := by
        rw [hwhole, Node.childrenAt?_alterAt, hp, Option.map_some, Node.adding_tree]
      rw [hk, Node.childrenAt?_concat hgrown]
      simp [Node.childrenAt?]
    have hfresh : k ∉ f.handles := by
      intro hmem
      have hold := hf.resolves k hmem
      rw [hk, Node.childrenAt?_concat hp] at hold
      simp at hold
    constructor
    · rw [hhandles]
      intro on hon
      rcases List.mem_append.1 hon with hon | hon
      · exact hkept on hon
      · obtain rfl := List.mem_singleton.1 hon
        exact hnew
    · rw [hhandles, List.nodup_append]
      refine ⟨hf.distinct, by simp, fun on hon k' hk' heq => ?_⟩
      obtain rfl := List.mem_singleton.1 hk'
      exact hfresh (heq ▸ hon)

theorem Sturdy.perform (hf : f.Sturdy) (a : Append ρ) : (f.perform a).Sturdy := by
  rcases f.loose_or_exists a.handle with hloose | ⟨on, children, hon, hplace⟩
  · rwa [hloose.perform]
  · obtain ⟨hwhole, hhandles⟩ := perform_eq hon hplace
    exact hf.of_adding hplace hwhole hhandles (a.call.given_cases on children.length)

/-- A new document is added as a child is to a tree. -/
theorem plant_whole (f : Forest ρ) (name : String) :
    (f.plant name).whole = f.whole.alterAt (Node.adding (.tree name [])) [] := by
  rw [whole, whole, Node.alterAt, Node.adding_tree]
  rfl

theorem Sturdy.plant (hf : f.Sturdy) (name : String) : (f.plant name).Sturdy := by
  have hplace : f.whole.childrenAt? [] = some f.documents := rfl
  exact hf.of_adding hplace (f.plant_whole name) rfl
    (.inr ⟨name, ⟨f.documents.length, []⟩, rfl, rfl, rfl⟩)

theorem tidy_perform (hf : f.whole.Tidy) (a : Append ρ) : (f.perform a).whole.Tidy := by
  rcases f.loose_or_exists a.handle with hloose | ⟨on, children, hon, hplace⟩
  · rwa [hloose.perform]
  · rw [(perform_eq hon hplace).1]
    exact hf.alterAt a.call.node_children on.place

theorem tidy_plant (hf : f.whole.Tidy) (name : String) : (f.plant name).whole.Tidy := by
  rw [plant_whole]
  exact hf.alterAt rfl []

theorem performAll_append (f : Forest ρ) (before after : List (Append ρ)) :
    f.performAll (before ++ after) = (f.performAll before).performAll after :=
  List.foldl_append

/-- What holds of documents without anything in them and is kept by every append, holds after every
series of appends. -/
theorem performAll_induction {motive : Forest ρ → Prop} (start : motive empty)
    (planting : ∀ f name, motive f → motive (f.plant name))
    (performing : ∀ f a, motive f → motive (f.perform a)) (roots : List String)
    (appends : List (Append ρ)) : motive ((planted roots).performAll appends) := by
  have hplanted : ∀ f, motive f → motive (roots.foldl plant f) := by
    intro f hf
    induction roots generalizing f with
    | nil => exact hf
    | cons root rest ih => exact ih _ (planting f root hf)
  have hperformed : ∀ f, motive f → motive (f.performAll appends) := by
    intro f hf
    induction appends generalizing f with
    | nil => exact hf
    | cons a rest ih => exact ih _ (performing f a hf)
  exact hperformed _ (hplanted _ start)

theorem sturdy_performAll (roots : List String) (appends : List (Append ρ)) :
    ((planted roots).performAll appends).Sturdy := by
  apply performAll_induction (motive := Sturdy)
  · exact ⟨nofun, .nil⟩
  · exact fun f name hf => hf.plant name
  · exact fun f a hf => hf.perform a

/-- Whatever is appended, and wherever, the documents are tidy. -/
theorem tidy_performAll (roots : List String) (appends : List (Append ρ)) :
    ∀ n ∈ ((planted roots).performAll appends).documents, n.Tidy := by
  have hwhole : ((planted roots).performAll appends).whole.Tidy := by
    apply performAll_induction (motive := fun f => f.whole.Tidy)
    · exact .of_childless rfl
    · exact fun f name hf => tidy_plant hf name
    · exact fun f a hf => tidy_perform hf a
  cases hwhole with
  | tree _ _ inside => exact inside

/-! Text can be added in pieces. -/

theorem write_write (f : Forest ρ) (h : Nat) (s t : String) :
    (f.write h s).write h t = f.write h (s ++ t) := by
  rcases f.loose_or_exists h with hloose | ⟨on, children, hon, hplace⟩
  · have hwrite : ∀ text, f.write h text = f := fun text =>
      Loose.perform (a := ⟨h, .literal text⟩) hloose
    rw [hwrite s, hwrite t, hwrite (s ++ t)]
  · have hwritten : ∀ text, (f.write h text).whole =
        f.whole.alterAt (Node.adding (.literal text)) on.place ∧
          (f.write h text).handles = f.handles := by
      intro text
      obtain ⟨hwhole, hhandles⟩ := perform_eq (a := ⟨h, .literal text⟩) hon hplace
      exact ⟨hwhole, hhandles.trans (List.append_nil _)⟩
    obtain ⟨hfirst, hkept⟩ := hwritten s
    have hon' : (f.write h s).handles[h]? = some on := by rw [hkept, hon]
    have hplace' : (f.write h s).whole.childrenAt? on.place =
        some (Node.adding (.literal s) children) := by
      rw [hfirst, Node.childrenAt?_alterAt, hplace, Option.map_some]
    obtain ⟨hsecond, hkept'⟩ := perform_eq (a := ⟨h, .literal t⟩) hon' hplace'
    apply eq_of_whole
    · calc ((f.write h s).write h t).whole
          = (f.write h s).whole.alterAt (Node.adding (.literal t)) on.place := hsecond
        _ = f.whole.alterAt (fun nodes => Node.adding (.literal t) (Node.adding (.literal s) nodes))
              on.place := by rw [hfirst, Node.alterAt_alterAt]
        _ = f.whole.alterAt (Node.adding (.literal (s ++ t))) on.place := by
              simp only [Node.adding_adding]
        _ = (f.write h (s ++ t)).whole := (hwritten (s ++ t)).1.symm
    · calc ((f.write h s).write h t).handles
          = (f.write h s).handles := hkept'.trans (List.append_nil _)
        _ = f.handles := hkept
        _ = (f.write h (s ++ t)).handles := (hwritten (s ++ t)).2.symm

theorem write_empty (f : Forest ρ) (h : Nat) : f.write h "" = f := by
  rcases f.loose_or_exists h with hloose | ⟨on, children, hon, hplace⟩
  · exact Loose.perform (a := ⟨h, .literal ""⟩) hloose
  · obtain ⟨hwhole, hhandles⟩ := perform_eq (a := ⟨h, .literal ""⟩) hon hplace
    apply eq_of_whole
    · have hempty : Node.adding (.literal "") = fun nodes : List (Node ρ) => nodes := by
        funext nodes
        exact Node.adding_empty nodes
      have hsame : f.whole.alterAt (Node.adding (.literal "")) on.place = f.whole := by
        rw [hempty, Node.alterAt_id]
      exact hwhole.trans hsame
    · exact hhandles.trans (List.append_nil _)

theorem write_characters (f : Forest ρ) (h : Nat) (chars : List Char) :
    f.performAll (chars.map fun c => ⟨h, .codePoint c⟩) = f.write h (String.ofList chars) := by
  induction chars generalizing f with
  | nil => exact (f.write_empty h).symm
  | cons c rest ih =>
    have hofList : String.ofList (c :: rest) = String.singleton c ++ String.ofList rest := by
      simp
    rw [hofList, ← write_write]
    exact ih (f.write h (String.singleton c))

/-! Appends to different trees can be made in either order. -/

/-- Two forests of the same documents, with the handles of the first one under other numbers in the
second one. -/
structure Alike (renumber : Nat → Nat) (f g : Forest ρ) : Prop where
  documents : f.documents = g.documents
  handles : ∀ h, g.handles[renumber h]? = f.handles[h]?
  count : f.handles.length = g.handles.length
  beyond : ∀ h, f.handles.length ≤ h → renumber h = h

/-- Numbers the handles of two new trees the other way round. -/
def exchanging (n h : Nat) : Nat := if h = n then n + 1 else if h = n + 1 then n else h

/-- How handles are numbered when two appends are made in the other order. -/
def renumbering (f : Forest ρ) (a b : Append ρ) : Nat → Nat :=
  if a.call.givesHandle && b.call.givesHandle then exchanging f.handles.length else id

/-- New handles have the same numbers on both sides. -/
theorem getElem?_append_renumber {renumber : Nat → Nat} {old other : List Handle}
    (hnumbers : ∀ h, other[renumber h]? = old[h]?) (hcount : old.length = other.length)
    (hbeyond : ∀ h, old.length ≤ h → renumber h = h) (given : List Handle) (h : Nat) :
    (other ++ given)[renumber h]? = (old ++ given)[h]? := by
  by_cases hold : h < old.length
  · have hother : renumber h < other.length := by
      have hsome := hnumbers h
      rw [List.getElem?_eq_getElem hold] at hsome
      exact (List.getElem?_eq_some_iff.1 hsome).1
    rw [List.getElem?_append_left hold, List.getElem?_append_left hother, hnumbers]
  · have hle := Nat.le_of_not_lt hold
    rw [hbeyond h hle, List.getElem?_append_right hle,
      List.getElem?_append_right (hcount ▸ hle), hcount]

theorem Alike.perform {renumber : Nat → Nat} (hfg : Alike renumber f g) (a : Append ρ) :
    Alike renumber (f.perform a) (g.perform ⟨renumber a.handle, a.call⟩) := by
  obtain ⟨hdocuments, hnumbers, hcount, hbeyond⟩ := hfg
  have hwhole : f.whole = g.whole := by rw [whole, whole, hdocuments]
  rcases f.loose_or_exists a.handle with hloose | ⟨on, children, hon, hplace⟩
  · have hloose' : g.Loose (renumber a.handle) := by
      intro on hon
      rw [hnumbers] at hon
      rw [← hwhole]
      exact hloose on hon
    rw [hloose.perform, Loose.perform (a := ⟨renumber a.handle, a.call⟩) hloose']
    exact ⟨hdocuments, hnumbers, hcount, hbeyond⟩
  · obtain ⟨hf, hfhandles⟩ := perform_eq hon hplace
    have hon' : g.handles[renumber a.handle]? = some on := by rw [hnumbers, hon]
    obtain ⟨hg, hghandles⟩ := perform_eq (a := ⟨renumber a.handle, a.call⟩) hon' (hwhole ▸ hplace)
    have hlater : (f.perform a).whole = (g.perform ⟨renumber a.handle, a.call⟩).whole := by
      rw [hf, hg, hwhole]
    refine ⟨(Node.tree.inj hlater).2, ?_, ?_, ?_⟩
    · intro h
      rw [hfhandles, hghandles]
      exact getElem?_append_renumber hnumbers hcount hbeyond _ h
    · rw [hfhandles, hghandles, List.length_append, List.length_append, hcount]
    · intro h hh
      rw [hfhandles, List.length_append] at hh
      exact hbeyond h (by omega)

theorem Alike.performAll {renumber : Nat → Nat} (hfg : Alike renumber f g)
    (appends : List (Append ρ)) :
    Alike renumber (f.performAll appends)
      (g.performAll (appends.map fun a => ⟨renumber a.handle, a.call⟩)) := by
  induction appends generalizing f g with
  | nil => exact hfg
  | cons a rest ih => exact ih (hfg.perform a)

/-- What two appends to different trees do, said of the forest before them. -/
theorem perform_perform {a b : Append ρ} {here there : Handle} {first second : List (Node ρ)}
    (ha : f.handles[a.handle]? = some here) (hfirst : f.whole.childrenAt? here.place = some first)
    (hb : f.handles[b.handle]? = some there)
    (hsecond : f.whole.childrenAt? there.place = some second) (hne : here ≠ there) :
    ((f.perform a).perform b).whole = (f.whole.alterAt (Node.adding a.call.node) here.place).alterAt
        (Node.adding b.call.node) there.place ∧
      ((f.perform a).perform b).handles =
        f.handles ++ a.call.given here first.length ++ b.call.given there second.length := by
  obtain ⟨hwhole, hhandles⟩ := perform_eq ha hfirst
  have hb' : (f.perform a).handles[b.handle]? = some there := by
    rw [hhandles, List.getElem?_append_left (List.getElem?_eq_some_iff.1 hb).1, hb]
  obtain ⟨later, hlater, hlength⟩ := Node.childrenAt?_alterAt_of_ne
    (Node.adding_steady a.call.node) (mt Handle.place_inj.1 hne) hsecond
  rw [← hwhole] at hlater
  obtain ⟨hwhole', hhandles'⟩ := perform_eq hb' hlater
  exact ⟨by rw [hwhole', hwhole], by rw [hhandles', hhandles, hlength]⟩

theorem getElem?_exchanging {handles : List Handle} (x y : Handle) (h : Nat) :
    (handles ++ [y] ++ [x])[exchanging handles.length h]? = (handles ++ [x] ++ [y])[h]? := by
  rw [List.append_assoc, List.append_assoc, exchanging]
  by_cases hfirst : h = handles.length
  · subst hfirst
    simp
  · by_cases hsecond : h = handles.length + 1
    · subst hsecond
      simp
    · simp only [hfirst, hsecond, if_false]
      by_cases hold : h < handles.length
      · rw [List.getElem?_append_left hold, List.getElem?_append_left hold]
      · rw [List.getElem?_eq_none_iff.2, List.getElem?_eq_none_iff.2]
        all_goals simp; omega

theorem alike_exchanging {old : List Handle} {x y : Handle} (hdocuments : f.documents = g.documents)
    (hf : f.handles = old ++ [x] ++ [y]) (hg : g.handles = old ++ [y] ++ [x]) :
    Alike (exchanging old.length) f g := by
  refine ⟨hdocuments, ?_, ?_, ?_⟩
  · intro h
    rw [hf, hg, getElem?_exchanging]
  · simp [hf, hg]
  · intro h hh
    rw [hf] at hh
    simp only [List.length_append, List.length_singleton] at hh
    rw [exchanging, if_neg (by omega), if_neg (by omega)]

/-- Two appends to different trees, the other way round. -/
theorem Sturdy.exchange (hf : f.Sturdy) {a b : Append ρ} (ha : a.handle < f.handles.length)
    (hb : b.handle < f.handles.length) (hne : a.handle ≠ b.handle) :
    Alike (f.renumbering a b) ((f.perform a).perform b) ((f.perform b).perform a) := by
  have hhere : f.handles[a.handle]? = some f.handles[a.handle] := List.getElem?_eq_getElem ha
  have hthere : f.handles[b.handle]? = some f.handles[b.handle] := List.getElem?_eq_getElem hb
  have hdistinct : f.handles[a.handle] ≠ f.handles[b.handle] := by
    intro heq
    exact hne ((List.Nodup.getElem_inj_iff hf.distinct).1 heq)
  obtain ⟨first, hfirst⟩ := hf.exists_children hhere
  obtain ⟨second, hsecond⟩ := hf.exists_children hthere
  obtain ⟨hwhole, hhandles⟩ := perform_perform hhere hfirst hthere hsecond hdistinct
  obtain ⟨hwhole', hhandles'⟩ := perform_perform hthere hsecond hhere hfirst hdistinct.symm
  have hsame : ((f.perform a).perform b).whole = ((f.perform b).perform a).whole := by
    rw [hwhole, hwhole']
    exact Node.alterAt_comm (Node.adding_steady _) (Node.adding_steady _)
      (mt Handle.place_inj.1 hdistinct) (Option.isSome_of_eq_some hfirst)
      (Option.isSome_of_eq_some hsecond)
  by_cases hboth : a.call.givesHandle = true ∧ b.call.givesHandle = true
  · have hrenumbering : f.renumbering a b = exchanging f.handles.length := by
      simp [renumbering, hboth]
    obtain ⟨x, hx⟩ := Call.exists_given hboth.1 f.handles[a.handle] first.length
    obtain ⟨y, hy⟩ := Call.exists_given hboth.2 f.handles[b.handle] second.length
    rw [hx, hy] at hhandles hhandles'
    rw [hrenumbering]
    exact alike_exchanging (Node.tree.inj hsame).2 hhandles hhandles'
  · have hrenumbering : f.renumbering a b = id := by
      simp only [renumbering, Bool.and_eq_true, hboth, if_false]
    have hlists : ((f.perform a).perform b).handles = ((f.perform b).perform a).handles := by
      rw [hhandles, hhandles']
      rcases not_and_or.1 hboth with hnone | hnone
      · rw [Call.given_eq_nil (Bool.eq_false_iff.2 hnone), List.append_nil, List.append_nil]
      · rw [Call.given_eq_nil (Bool.eq_false_iff.2 hnone), List.append_nil, List.append_nil]
    rw [eq_of_whole hsame hlists, hrenumbering]
    exact ⟨rfl, fun _ => rfl, rfl, fun _ _ => rfl⟩

/-- From here on, and so far, documents only depend on what each of their trees receives. -/
structure OrderFree (f : Forest ρ) : Prop where
  exchange : ∀ a b after, a.handle < f.handles.length → b.handle < f.handles.length →
    a.handle ≠ b.handle →
      Alike (f.renumbering a b) (f.performAll (a :: b :: after))
        (f.performAll (b :: a :: after.map fun c => ⟨f.renumbering a b c.handle, c.call⟩))
  split : ∀ h s t after, f.performAll (⟨h, .literal (s ++ t)⟩ :: after) =
    f.performAll (⟨h, .literal s⟩ :: ⟨h, .literal t⟩ :: after)
  spell : ∀ h s after, f.performAll (⟨h, .literal s⟩ :: after) =
    f.performAll ((s.toList.map fun c => ⟨h, .codePoint c⟩) ++ after)
  skip : ∀ h after, f.performAll (⟨h, .literal ""⟩ :: after) = f.performAll after
  tidy : ∀ n ∈ f.documents, n.Tidy

/-- After any series of appends to any trees, neighbouring appends to different trees can be
exchanged, text can be added in any pieces, and all documents are tidy. Documents that are equal, as
far as equal payloads are, are the same to every hasher that cannot tell equal payloads apart. -/
theorem appends_order_free (roots : List String) (before : List (Append ρ)) :
    ((planted roots).performAll before).OrderFree ∧
      ∀ {σ : Type} (eq : ρ → ρ → Bool) (hasher : Hasher ρ σ),
        (∀ p q, eq p q = true → hasher.payload p = hasher.payload q) →
          ∀ n m : Node ρ, n.same eq m = true → n.feed hasher = m.feed hasher := by
  refine ⟨?_, fun eq hasher agree n m hsame => Node.feed_of_same agree hsame⟩
  have hsturdy := sturdy_performAll roots before
  have htidy := tidy_performAll roots before
  generalize (planted roots).performAll before = f at hsturdy htidy
  constructor
  · intro a b after ha hb hne
    exact (hsturdy.exchange ha hb hne).performAll after
  · intro h s t after
    have hsplit := f.write_write h s t
    exact congrArg (fun g => g.performAll after) hsplit.symm
  · intro h s after
    rw [performAll_append, write_characters, String.ofList_toList]
    rfl
  · intro h after
    have hskip := f.write_empty h
    exact congrArg (fun g => g.performAll after) hskip
  · exact htidy

/-- A refrain behind a verse and a line in the verse, either of them first. -/
theorem appends_order_free_song :
    ∃ song : Node Unit,
      ((planted ["song"]).performAll ([⟨0, .child "verse"⟩] ++
        [⟨0, .child "refrain"⟩, ⟨1, .child "line"⟩, ⟨2, .literal "la"⟩, ⟨3, .codePoint 'x'⟩]) :
          Forest Unit).documents = [song] ∧
      ((planted ["song"]).performAll ([⟨0, .child "verse"⟩] ++
        [⟨1, .child "line"⟩, ⟨0, .child "refrain"⟩, ⟨3, .literal "la"⟩, ⟨2, .codePoint 'x'⟩]) :
          Forest Unit).documents = [song] := by
  have hfree := (appends_order_free (ρ := Unit) ["song"] [⟨0, .child "verse"⟩]).1
  have halike := hfree.exchange ⟨0, .child "refrain"⟩ ⟨1, .child "line"⟩
    [⟨2, .literal "la"⟩, ⟨3, .codePoint 'x'⟩] (by decide) (by decide) (by decide)
  have hdocuments := halike.documents
  refine ⟨.tree "song" [.tree "verse" [.tree "line" [.literal "x"]],
    .tree "refrain" [.literal "la"]], ?_, ?_⟩
  · rfl
  · exact hdocuments.symm.trans rfl

end Forest

end Sentential
