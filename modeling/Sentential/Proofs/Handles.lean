import Sentential.Generation.Handles
import Sentential.Proofs.Appends
import Sentential.Proofs.Edge

/-!
# Handles on the edge

A run through handles does what the run with a focus does: whenever an errand is at hand, its tree
is where the focus is, and each of its links has a handle on the tree that the focus comes to when it
has left as many trees as are left before that link. So no handle is ever stale. The trees of the
links lie on the right edge of the document, each in or around the one before it, and whatever an
errand does is added behind all that is there.
-/
namespace Sentential

variable {ρ ω α : Type}

theorem getElem?_of_isPrefix {xs ys : List α} {i : Nat} {x : α} (kept : xs <+: ys)
    (h : xs[i]? = some x) : ys[i]? = some x := by
  obtain ⟨more, rfl⟩ := kept
  rw [List.getElem?_append_left (List.getElem?_eq_some_iff.1 h).1, h]

namespace Node

theorem Edge.split {p q : List Nat} {n m : Node ρ} (h : Edge (p ++ q) n m) :
    ∃ k, Edge p n k ∧ Edge q k m := by
  induction p generalizing n with
  | nil => exact ⟨n, rfl, h⟩
  | cons i is ih =>
    obtain ⟨hlast, child, hchild, hbelow⟩ := h
    obtain ⟨k, hk, hm⟩ := ih hbelow
    exact ⟨k, ⟨hlast, child, hchild, hk⟩, hm⟩

theorem Edge.isTree {p : List Nat} {n m : Node ρ} (h : Edge p n m) (hm : m.isTree = true) :
    n.isTree = true := by
  cases p with
  | nil =>
    obtain rfl : n = m := h
    exact hm
  | cons i is =>
    obtain ⟨hlast, -⟩ := h
    cases n with
    | tree name children => rfl
    | literal text => simp [children] at hlast
    | deferred name payload => simp [children] at hlast

end Node

namespace Cursor

variable {c : Cursor ρ}

@[simp] theorem write_position (c : Cursor ρ) (text : String) :
    (c.write text).position = c.position := by
  unfold write
  split <;> rfl

@[simp] theorem write_outer (c : Cursor ρ) (text : String) : (c.write text).outer = c.outer := by
  unfold write
  split <;> rfl

theorem enter_position (c : Cursor ρ) (name : String) :
    (c.enter name).position = c.position ++ [c.latest.length] := by
  simp [position, enter]

theorem leave_outer (c : Cursor ρ) : c.leave.outer = c.outer := by
  obtain ⟨name, latest, _ | ⟨frame, frames⟩, outer⟩ := c <;> rfl

theorem leave_position {path : List Nat} {i : Nat} (h : c.position = path ++ [i]) :
    c.leave.position = path := by
  obtain ⟨name, latest, _ | ⟨frame, frames⟩, outer⟩ := c
  · simp [position] at h
  · simp only [position, List.reverse_cons, List.map_append, List.map_cons, List.map_nil] at h
    exact (List.append_inj' h rfl).1

theorem descend?_append (c : Cursor ρ) (p q : List Nat) :
    c.descend? (p ++ q) = (c.descend? p).bind fun d => d.descend? q := by
  induction p generalizing c with
  | nil => rfl
  | cons i is ih =>
    rw [List.cons_append, descend?, descend?, Option.bind_assoc]
    exact Option.bind_congr fun d _ => ih d

theorem descend?_position (h : c.outer = []) :
    (ofNode? c.document).bind (fun d => d.descend? c.position) = some c := by
  obtain ⟨name, latest, frames, outer⟩ := c
  obtain rfl : outer = [] := h
  induction frames generalizing name latest with
  | nil => simp [document, focus, close, ofNode?, position, descend?]
  | cons frame frames ih =>
    -- the tree around the focus is found first, and the focus is one of its children
    let parent := leave ⟨name, latest, frame :: frames, []⟩
    have hposition : position ⟨name, latest, frame :: frames, []⟩ =
        parent.position ++ [frame.before.length] := by
      simp [position, parent, leave]
    have hchildren : parent.latest.reverse =
        frame.before.reverse ++ .tree name latest.reverse :: frame.after := by
      simp [parent, leave, focus, List.reverseAux_eq]
    have hfound : (ofNode? parent.document).bind (fun d => d.descend? parent.position) =
        some parent := ih frame.name _
    have hdown := down?_of_split hchildren
    rw [List.length_reverse, List.reverse_reverse, List.reverse_reverse] at hdown
    rw [← leave_document, hposition]
    simp only [descend?_append]
    rw [← Option.bind_assoc, hfound, Option.bind_some, descend?, hdown]
    rfl

end Cursor

namespace Forest

variable {f : Forest ρ} {others : List (Node ρ)} {tree : Nat} {c : Cursor ρ}

/-- The last document of a forest, behind the others, is the one in focus, and a handle is on the
focus. -/
structure Holds (f : Forest ρ) (others : List (Node ρ)) (tree : Nat) (c : Cursor ρ) : Prop where
  documents : f.documents = others ++ [c.document]
  outermost : c.outer = []
  handle : f.handles[tree]? = some ⟨others.length, c.position⟩

namespace Holds

variable (h : f.Holds others tree c)

include h

theorem cursor? : f.cursor? tree = some c := by
  rw [cursor?_eq h.handle, h.documents, List.getElem?_concat_length, Option.bind_some]
  exact Cursor.descend?_position h.outermost

theorem edit_eq (change : Cursor ρ → Cursor ρ) :
    f.edit tree change = ⟨others ++ [(change c).document], f.handles⟩ := by
  simp [edit, h.handle, h.cursor?, h.documents]

theorem edit {change : Cursor ρ → Cursor ρ} (position : (change c).position = c.position)
    (outer : (change c).outer = c.outer) : (f.edit tree change).Holds others tree (change c) := by
  rw [h.edit_eq]
  exact ⟨rfl, outer.trans h.outermost, by rw [position, h.handle]⟩

theorem sprout_eq (name : String) :
    f.sprout tree name = ⟨others ++ [(c.enter name).document],
      f.handles ++ [⟨others.length, (c.enter name).position⟩]⟩ := by
  simp [sprout, h.handle, h.cursor?, h.documents, Cursor.enter_position]

theorem sprout (name : String) :
    (f.sprout tree name).Holds others f.handles.length (c.enter name) := by
  rw [h.sprout_eq]
  exact ⟨rfl, h.outermost, List.getElem?_concat_length⟩

end Holds

end Forest

/-- The same pending work, which goes on in the tree in focus. -/
def Remaining.pending : Remaining → Pending
  | terms ts => .terms ts
  | times t n => .times t n

theorem Remaining.resume_eq (remaining : Remaining) (rest : List Pending) (c : Cursor ρ) :
    resume (remaining.pending :: rest) c =
      match remaining.advance? with
      | some (t, later) => .next ⟨c, t, later.pending :: rest⟩
      | none => resume rest c := by
  cases remaining with
  | terms ts => cases ts <;> rw [pending, advance?, resume]; rfl
  | times t n => cases n <;> rw [pending, advance?, resume]; rfl

/-- Links and pending work that say the same, when the focus is at a position: each link has a handle
on the tree that is in focus when its turn comes. -/
inductive Tied (handles : List Handle) (document : Nat) :
    List Nat → List Link → List Pending → Prop
  | nil : Tied handles document [] [] []
  | link {path : List Nat} {tree : Nat} {remaining : Remaining} {links : List Link}
      {pending : List Pending} (held : handles[tree]? = some ⟨document, path⟩)
      (rest : Tied handles document path links pending) :
      Tied handles document path (⟨tree, remaining⟩ :: links) (remaining.pending :: pending)
  | leave {path : List Nat} {i : Nat} {links : List Link} {pending : List Pending}
      (rest : Tied handles document path links pending) :
      Tied handles document (path ++ [i]) links (.leave :: pending)

/-- Handles that are given later change nothing. -/
theorem Tied.mono {handles later : List Handle} {document : Nat} {path : List Nat}
    {links : List Link} {pending : List Pending} (h : Tied handles document path links pending)
    (kept : handles <+: later) : Tied later document path links pending := by
  induction h with
  | nil => exact .nil
  | link held rest ih => exact .link (getElem?_of_isPrefix kept held) ih
  | leave rest ih => exact .leave ih

/-- The handles of the links are on the focus and on trees around it, innermost first. -/
theorem Tied.exists_paths {handles : List Handle} {document : Nat} {path : List Nat}
    {links : List Link} {pending : List Pending} (h : Tied handles document path links pending) :
    ∃ paths : List (List Nat), links.map (fun link => handles[link.tree]?) =
        paths.map (fun p => some ⟨document, p⟩) ∧
      (∀ p ∈ paths, p <+: path) ∧ paths.Pairwise fun inner outer => outer <+: inner := by
  induction h with
  | nil => exact ⟨[], rfl, nofun, .nil⟩
  | @link path tree remaining links pending held rest ih =>
    obtain ⟨paths, hpaths, around, sorted⟩ := ih
    refine ⟨path :: paths, ?_, ?_, List.pairwise_cons.2 ⟨around, sorted⟩⟩
    · rw [List.map_cons, List.map_cons, held, hpaths]
    · exact List.forall_mem_cons.2 ⟨List.prefix_rfl, around⟩
  | leave rest ih =>
    obtain ⟨paths, hpaths, around, sorted⟩ := ih
    exact ⟨paths, hpaths, fun p hp => (around p hp).trans (List.prefix_append _ _), sorted⟩

/-- The handles of the tree that an errand is for, and of those that its links go on in. -/
def Errand.trees (e : Errand) : List Nat := e.tree :: e.links.map Link.tree

/-- An errand in a forest does what a state does at its focus. -/
structure Errand.Stands (others : List (Node ρ)) (f : Forest ρ) (e : Errand) (s : State ρ) :
    Prop where
  held : f.Holds others e.tree s.cursor
  term : e.term = s.term
  tied : Tied f.handles others.length s.cursor.position e.links s.pending

/-- What comes next in a forest, and what a step leads to. -/
inductive Meets (others : List (Node ρ)) (f : Forest ρ) : Option Errand → Step ρ → Prop
  | next {e : Errand} {s : State ρ} (stands : e.Stands others f s) :
      Meets others f (some e) (.next s)
  | done {c : Cursor ρ} (documents : f.documents = others ++ [c.document]) :
      Meets others f none (.done c)

theorem Meets.documents {others : List (Node ρ)} {f : Forest ρ} {x : Option Errand} {y : Step ρ}
    (h : Meets others f x y) : f.documents = others ++ [y.document] := by
  cases h with
  | next stands => exact stands.held.documents
  | done documents => exact documents

theorem Tied.resolve {others : List (Node ρ)} {f : Forest ρ} {c : Cursor ρ} {path : List Nat}
    {links : List Link} {pending : List Pending}
    (h : Tied f.handles others.length path links pending)
    (documents : f.documents = others ++ [c.document]) (outermost : c.outer = [])
    (position : c.position = path) : Meets others f (resolve links) (resume pending c) := by
  induction h generalizing c with
  | nil =>
    rw [Sentential.resolve, resume]
    exact .done documents
  | @link path tree remaining links pending held rest ih =>
    subst position
    rw [Sentential.resolve, remaining.resume_eq]
    cases remaining.advance? with
    | none => exact ih documents outermost rfl
    | some next => exact .next ⟨⟨documents, outermost, held⟩, rfl, .link held rest⟩
  | leave rest ih =>
    rw [resume]
    exact ih (by rw [c.leave_document, documents]) (by rw [c.leave_outer, outermost])
      (Cursor.leave_position position)

namespace Builder

variable {b : Builder ρ ω} {others : List (Node ρ)} {f : Forest ρ}

/-- A step through handles and one with a focus end in the same way. Where there is no next errand
because of a fault, the forest is left as it was. -/
inductive Ends (others : List (Node ρ)) (f : Forest ρ) :
    Outcome (Option Errand) × (Forest ρ × ω) → Outcome (Step ρ) × ω → Prop
  | value {g : Forest ρ} {x : Option Errand} {y : Step ρ} {w : ω}
      (kept : f.handles <+: g.handles) (meets : Meets others g x y) :
      Ends others f (.value x, (g, w)) (.value y, w)
  | failed (why : Fault) (w : ω) : Ends others f (.failed why, (f, w)) (.failed why, w)
  | unfinished (w : ω) : Ends others f (.unfinished, (f, w)) (.unfinished, w)

theorem ends_perform {x : Act ω α} {k : α → Act (Forest ρ × ω) (Option Errand)}
    {l : α → Act ω (Step ρ)} (each : ∀ a v, Ends others f (k a (f, v)) (l a v)) (w : ω) :
    Ends others f ((Part.snd.perform x >>= k) (f, w)) ((x >>= l) w) := by
  have hperform : Part.snd.perform x (f, w) = ((x w).1, (f, (x w).2)) := rfl
  rw [Act.bind_run, Act.bind_run, hperform]
  rcases x w with ⟨a | why | _, v⟩
  · exact each a v
  · exact .failed why v
  · exact .unfinished v

section Advance

variable {c : Cursor ρ} {tree : Nat} {links : List Link} {pending : List Pending}
  (held : f.Holds others tree c) (tied : Tied f.handles others.length c.position links pending)

include held tied

theorem ends_schedule (remaining : Remaining) (w : ω) :
    Ends others f (.value (resolve (⟨tree, remaining⟩ :: links)), (f, w))
      (.value (resume (remaining.pending :: pending) c), w) :=
  .value List.prefix_rfl
    ((Tied.link held.handle tied).resolve held.documents held.outermost rfl)

theorem ends_edit {change : Cursor ρ → Cursor ρ} (position : (change c).position = c.position)
    (outer : (change c).outer = c.outer) (w : ω) :
    Ends others f (.value (resolve links), (f.edit tree change, w))
      (.value (resume pending (change c)), w) := by
  have hheld := held.edit position outer
  have hhandles : (f.edit tree change).handles = f.handles := by rw [held.edit_eq]
  refine .value (hhandles.symm ▸ List.prefix_rfl) ?_
  rw [← hhandles] at tied
  exact tied.resolve hheld.documents hheld.outermost position

theorem referAt_ends (name : String) (w : ω) : Ends others f (b.referAt tree links name (f, w))
    (Act.ofExcept (b.refer name pending c) w) := by
  rw [referAt, refer]
  cases b.deferral name with
  | some payload => exact ends_edit held tied rfl rfl w
  | none =>
    cases b.grammar.definition name with
    | error why => exact .failed why w
    | ok definition =>
      have hheld := held.sprout name
      have hkept : f.handles <+: (f.sprout tree name).handles := by
        rw [held.sprout_eq]
        exact List.prefix_append _ _
      refine .value hkept (.next ⟨hheld, rfl, ?_⟩)
      rw [Cursor.enter_position]
      exact .leave (tied.mono hkept)

/-- What the term of an errand leads to is what it leads to at the focus. -/
theorem advanceAt_ends (t : Term) (w : ω) : Ends others f (b.advanceAt c tree links t (f, w))
    (b.advance c pending t w) := by
  cases t with
  | literal text => exact ends_edit held tied (c.write_position text) (c.write_outer text) w
  | epsilon =>
    exact .value List.prefix_rfl (tied.resolve held.documents held.outermost rfl)
  | sequence terms => exact ends_schedule held tied (.terms terms) w
  | alternatives options =>
    exact ends_perform (fun i v => .value List.prefix_rfl (.next ⟨held, rfl, tied⟩)) w
  | optional t p => exact ends_perform (fun yes v => ends_schedule held tied (.times t _) v) w
  | repetition t bounds =>
    exact ends_perform (fun count v => ends_schedule held tied (.times t count) v) w
  | reference name => exact referAt_ends held tied name w
  | characters set =>
    refine ends_perform (fun char v => ?_) w
    exact ends_edit held tied (c.write_position _) (c.write_outer _) v

end Advance

/-- A step of an errand is the step of the state that it stands for. -/
theorem work_ends {e : Errand} {s : State ρ} (h : e.Stands others f s) (w : ω) :
    Ends others f (b.work e (f, w)) (b.step s w) := by
  obtain ⟨held, term, tied⟩ := h
  have hlook : Forest.look e.tree (f, w) = (.value s.cursor, (f, w)) := by
    rw [Forest.look, held.cursor?]
  rw [work, Act.bind_value hlook, term]
  exact advanceAt_ends held tied s.term _

/-- A run through handles and one with a focus end in the same way, with the same document. -/
inductive Finishes (others : List (Node ρ)) (f : Forest ρ) :
    Outcome Unit × (Forest ρ × ω) → Ending ρ × ω → Prop
  | done {g : Forest ρ} {c : Cursor ρ} {w : ω} (kept : f.handles <+: g.handles)
      (documents : g.documents = others ++ [c.document]) :
      Finishes others f (.value (), (g, w)) (.done c, w)
  | failed {g : Forest ρ} {why : Fault} {s : State ρ} {w : ω} (kept : f.handles <+: g.handles)
      (documents : g.documents = others ++ [s.cursor.document]) :
      Finishes others f (.failed why, (g, w)) (.failed why s, w)
  | stopped {g : Forest ρ} {s : State ρ} {w : ω} (kept : f.handles <+: g.handles)
      (documents : g.documents = others ++ [s.cursor.document]) :
      Finishes others f (.unfinished, (g, w)) (.stopped s, w)

theorem workAll_none (n : Nat) (v : Forest ρ × ω) : b.workAll n none v = (.value (), v) := by
  cases n <;> rfl

theorem Finishes.after {f g : Forest ρ} {x : Outcome Unit × (Forest ρ × ω)} {y : Ending ρ × ω}
    (h : Finishes others g x y) (kept : f.handles <+: g.handles) : Finishes others f x y := by
  cases h with
  | done later documents => exact .done (kept.trans later) documents
  | failed later documents => exact .failed (kept.trans later) documents
  | stopped later documents => exact .stopped (kept.trans later) documents

theorem workAll_finishes {x : Option Errand} {y : Step ρ} (h : Meets others f x y) (n : Nat)
    (w : ω) : Finishes others f (b.workAll n x (f, w)) (b.proceed n y w) := by
  induction n generalizing f x y w with
  | zero =>
    cases h with
    | next stands => exact .stopped List.prefix_rfl stands.held.documents
    | done documents => exact .done List.prefix_rfl documents
  | succ n ih =>
    cases h with
    | done documents =>
      rw [workAll_none, proceed_done]
      exact .done List.prefix_rfl documents
    | @next e s stands =>
      have hstep := work_ends (b := b) stands w
      rw [proceed_next, run_succ, workAll, Act.bind_run]
      revert hstep
      generalize b.work e (f, w) = r
      generalize b.step s w = r'
      intro hstep
      cases hstep with
      | value kept meets => exact (ih meets _).after kept
      | failed why v => exact .failed List.prefix_rfl stands.held.documents
      | unfinished v => exact .stopped List.prefix_rfl stands.held.documents

/-- The errand that a run begins with, in a new document. -/
theorem stands_planted (f : Forest ρ) (name : String) (t : Term) :
    Errand.Stands f.documents (f.plant name) ⟨f.handles.length, t, []⟩ ⟨.root name, t, []⟩ :=
  ⟨⟨rfl, rfl, List.getElem?_concat_length⟩, rfl, .nil⟩

section Definition

variable {name : String} {definition : Term} (defined : b.grammar.definition name = .ok definition)

include defined

theorem tree_of_definition (budget : Nat) (w : ω) : b.tree budget name w =
    (b.build budget (.root name) definition >>= fun c => pure c.document) w := by
  simp only [tree, define, defined]
  rfl

theorem raise_of_definition (budget : Nat) (f : Forest ρ) (w : ω) : b.raise budget name (f, w) =
    (b.workAll budget (some ⟨f.handles.length, definition, []⟩) >>=
      fun _ => pure f.handles.length) (f.plant name, w) := by
  simp only [raise, defined]
  rfl

end Definition

/-- Documents are made alike through handles and with a focus, whatever has been made before: with
the same fault, or the same document, which the handle is on. -/
theorem raise_tree (b : Builder ρ ω) (budget : Nat) (name : String) (f : Forest ρ) (w : ω) :
    match b.tree budget name w with
    | (.value document, v) => ∃ g, b.raise budget name (f, w) = (.value f.handles.length, (g, v)) ∧
        g.documents = f.documents ++ [document] ∧
        g.handles[f.handles.length]? = some ⟨f.documents.length, []⟩
    | (.failed why, v) => ∃ g, b.raise budget name (f, w) = (.failed why, (g, v))
    | (.unfinished, v) => ∃ g, b.raise budget name (f, w) = (.unfinished, (g, v)) := by
  cases defined : b.grammar.definition name with
  | error why =>
    have htree : b.tree budget name w = (.failed why, w) := by
      simp only [tree, define, defined]
      rfl
    have hraise : b.raise budget name (f, w) = (.failed why, (f, w)) := by
      simp only [raise, defined]
      rfl
    rw [htree]
    exact ⟨f, hraise⟩
  | ok definition =>
    have hroot : (f.plant name).handles[f.handles.length]? = some ⟨f.documents.length, []⟩ :=
      List.getElem?_concat_length
    have hfinishes := workAll_finishes (b := b) (.next (stands_planted f name definition)) budget w
    rw [tree_of_definition defined, raise_of_definition defined, Act.bind_run, Act.bind_run, build]
    rw [proceed_next] at hfinishes
    revert hfinishes
    generalize b.workAll budget _ (f.plant name, w) = r
    generalize b.run budget _ w = r'
    intro hfinishes
    cases hfinishes with
    | @done g c v kept documents =>
      exact ⟨g, rfl, documents, getElem?_of_isPrefix kept hroot⟩
    | failed kept documents => exact ⟨_, rfl⟩
    | stopped kept documents => exact ⟨_, rfl⟩

/-- The errands that a run comes to, and the worlds. -/
inductive Visits (b : Builder ρ ω) (e : Errand) (w : Forest ρ × ω) : Errand → Forest ρ × ω → Prop
  | start : Visits b e w e w
  | step {d d' : Errand} {v v' : Forest ρ × ω} (before : Visits b e w d v)
      (taken : b.work d v = (.value (some d'), v')) : Visits b e w d' v'

theorem Visits.stands {name : String} {t : Term} {e : Errand} {g : Forest ρ} {w v : ω}
    (h : b.Visits ⟨f.handles.length, t, []⟩ (f.plant name, w) e (g, v)) :
    ∃ s, b.Reachable ⟨.root name, t, []⟩ w s v ∧ e.Stands f.documents g s := by
  generalize hstart : (f.plant name, w) = start at h
  generalize hend : (g, v) = last at h
  induction h generalizing g v with
  | start =>
    cases hstart
    cases hend
    exact ⟨_, .start, stands_planted f name t⟩
  | @step d d' u u' before taken ih =>
    subst hend
    obtain ⟨g', v'⟩ := u
    obtain ⟨s, reach, stands⟩ := ih rfl
    have hstep := work_ends (b := b) stands v'
    rw [taken] at hstep
    generalize hs : b.step s v' = r at hstep
    cases hstep with
    | value kept meets =>
      cases meets with
      | next stands => exact ⟨_, reach.step hs, stands⟩

/-- Whatever a run with a focus comes to, the run through handles comes to as well. -/
theorem Reachable.exists_visits {name : String} {t : Term} {s : State ρ} {w v : ω}
    (h : b.Reachable ⟨.root name, t, []⟩ w s v) (f : Forest ρ) :
    ∃ e g, b.Visits ⟨f.handles.length, t, []⟩ (f.plant name, w) e (g, v) ∧
      e.Stands f.documents g s := by
  induction h with
  | start => exact ⟨_, _, .start, stands_planted f name t⟩
  | @step s s' v v' before taken ih =>
    obtain ⟨e, g, visits, stands⟩ := ih
    have hstep := work_ends (b := b) stands v
    rw [taken] at hstep
    generalize hwork : b.work e (g, v) = r at hstep
    cases hstep with
    | value kept meets =>
      cases meets with
      | next stands => exact ⟨_, _, visits.step hwork, stands⟩

/-- Whatever a run in a new document comes to, the trees of the errand and of its links, from the next
one on, lie on the right edge of the document, each in or around the one before it. A step keeps all
nodes in their places, and the leaves that are there stay in front of what it adds. The run with a
focus comes to the same term with the same document. -/
theorem reachable_on_edge {name : String} {t : Term} {e : Errand} {g : Forest ρ} {w v : ω}
    (h : b.Visits ⟨f.handles.length, t, []⟩ (f.plant name, w) e (g, v)) :
    ∃ (document : Node ρ) (paths : List (List Nat)),
      g.documents = f.documents ++ [document] ∧
      e.trees.map (fun tree => g.handles[tree]?) =
        paths.map (fun p => some ⟨f.documents.length, p⟩) ∧
      (∀ p ∈ paths, ∃ n : Node ρ, n.isTree = true ∧ Node.Edge p document n) ∧
      (paths.Pairwise fun inner outer => outer <+: inner) ∧
      (∀ r g' u, b.work e (g, v) = (r, (g', u)) → ∃ later,
        g'.documents = f.documents ++ [later] ∧
          document.leaves <+: later.leaves ∧ document.Keeps later) ∧
      ∃ s, b.Reachable ⟨.root name, t, []⟩ w s v ∧ s.term = e.term ∧
        s.cursor.document = document := by
  obtain ⟨s, reach, stands⟩ := h.stands
  have hend : s.cursor.AtEnd := reach.atEnd (Cursor.root_atEnd name)
  obtain ⟨paths, hpaths, around, sorted⟩ := stands.tied.exists_paths
  refine ⟨s.cursor.document, s.cursor.position :: paths, stands.held.documents, ?_, fun p hp => ?_,
    List.pairwise_cons.2 ⟨around, sorted⟩, fun r g' u hwork => ?_, s, reach, stands.term.symm, rfl⟩
  · rw [Errand.trees, List.map_cons, List.map_cons, stands.held.handle, List.map_map, ← hpaths]
    rfl
  · have hprefix : p <+: s.cursor.position := by
      rcases List.mem_cons.1 hp with rfl | hp
      · exact List.prefix_rfl
      · exact around p hp
    obtain ⟨rest, hrest⟩ := hprefix
    have hedge := hend.edge
    rw [← hrest] at hedge
    obtain ⟨n, hn, hfocus⟩ := hedge.split
    exact ⟨n, hfocus.isTree rfl, hn⟩
  · have hstep := work_ends (b := b) stands v
    rw [hwork] at hstep
    generalize hs : b.step s v = r' at hstep
    cases hstep with
    | value kept meets =>
      have hgrown := step_grown hend hs
      exact ⟨_, meets.documents, hgrown.leaves, hgrown.keeps⟩
    | failed | unfinished =>
      exact ⟨_, stands.held.documents, List.prefix_rfl, (Node.Grown.refl _).keeps⟩

/-- Greets somebody whose name is not known before the document is written. -/
def greeting : Builder Nat Unit where
  grammar :=
    { language := "greeting"
      productions := (Catalogue.empty.insert "greeting"
        (.sequence [.reference "hail", .literal "!"])).insert "hail"
          (.sequence [.literal "Hi ", .reference "name"]) }
  policy _ _ := Act.unfinished
  deferral name := if name = "name" then some 7 else none
  log := .silent

/-- Just before the name is deferred, which ends one tree and goes on in the one around it. -/
theorem reachable_on_edge_greeting :
    ∃ e g document later, greeting.Visits ⟨0, .sequence [.reference "hail", .literal "!"], []⟩
        (Forest.empty.plant "greeting", ()) e (g, ()) ∧
      e.trees = [1, 1, 0] ∧ g.handles = [⟨0, []⟩, ⟨0, [0]⟩] ∧ g.documents = [document] ∧
      (∀ p ∈ [[0], [0], []], ∃ n : Node Nat, n.isTree = true ∧ Node.Edge p document n) ∧
      ∃ g', greeting.work e (g, ()) = (.value (some ⟨0, .literal "!", [⟨0, .terms []⟩]⟩), (g', ())) ∧
        g'.documents = [later] ∧ document.leaves <+: later.leaves ∧ document.Keeps later := by
  have hvisits := ((((Visits.start (b := greeting)
    (e := ⟨0, .sequence [.reference "hail", .literal "!"], []⟩)
    (w := (Forest.empty.plant "greeting", ()))).step rfl).step rfl).step rfl).step rfl
  obtain ⟨document, paths, hdocument, hpaths, hedge, -, hgrown, -⟩ :=
    reachable_on_edge (f := .empty) hvisits
  have hinj : Function.Injective fun p : List Nat => some (Handle.mk 0 p) := by
    intro p q hpq
    cases hpq
    rfl
  obtain rfl : paths = [[0], [0], []] := List.map_injective_iff.2 hinj (hpaths.symm.trans rfl)
  obtain ⟨later, hlater, hleaves, hkeeps⟩ := hgrown _ _ _ rfl
  exact ⟨_, _, document, later, hvisits, rfl, rfl, hdocument, hedge, _, rfl, hlater, hleaves,
    hkeeps⟩

end Builder

end Sentential
