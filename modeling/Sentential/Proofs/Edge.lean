import Sentential.Proofs.Steps

/-!
# Building at the end

A document is only ever built at its end: the tree in focus lies on the right edge of the document.
So a step leaves all nodes where they are, and what it adds comes behind all the leaves that are
there.
-/
namespace Sentential

variable {ρ ω : Type}

/-- What is written or invoked when a document is written: a character or a deferred node. -/
inductive Leaf (ρ : Type) where
  | character (c : Char)
  | deferred (name : String) (payload : ρ)

namespace Node

mutual

def leaves : Node ρ → List (Leaf ρ)
  | literal text => text.toList.map .character
  | deferred name payload => [.deferred name payload]
  | tree _ children => leavesAll children

def leavesAll : List (Node ρ) → List (Leaf ρ)
  | [] => []
  | n :: rest => leaves n ++ leavesAll rest

end

mutual

/-- A node and what it has become: its text goes on, or its children have grown. -/
inductive Grown : Node ρ → Node ρ → Prop
  | literal (text more : String) : Grown (literal text) (literal (text ++ more))
  | deferred (name : String) (payload : ρ) : Grown (deferred name payload) (deferred name payload)
  | tree (name : String) {before after : List (Node ρ)} (children : GrownAll before after) :
      Grown (tree name before) (tree name after)

/-- Siblings and what they have become: only the last one may have grown, and others may have come
behind it. -/
inductive GrownAll : List (Node ρ) → List (Node ρ) → Prop
  | behind (later : List (Node ρ)) : GrownAll [] later
  | last {n m : Node ρ} (grown : Grown n m) (later : List (Node ρ)) : GrownAll [n] (m :: later)
  | same (n : Node ρ) {before after : List (Node ρ)} (rest : GrownAll before after) :
      GrownAll (n :: before) (n :: after)

end

/-- Every node is still in its place, and there it has at most grown. -/
def Keeps (n m : Node ρ) : Prop :=
  ∀ path s, Spot.descend? ⟨n, []⟩ path = some s →
    ∃ t, Spot.descend? ⟨m, []⟩ path = some t ∧ Grown s.node t.node

/-- Taking the last child each time leads from one node to another. -/
def Edge : List Nat → Node ρ → Node ρ → Prop
  | [], n, m => n = m
  | i :: is, n, m => i + 1 = n.children.length ∧ ∃ child, n.children[i]? = some child ∧ Edge is child m

theorem GrownAll.refl (nodes : List (Node ρ)) : GrownAll nodes nodes := by
  induction nodes with
  | nil => exact .behind []
  | cons n rest ih => exact .same n ih

theorem Grown.refl (n : Node ρ) : Grown n n := by
  cases n with
  | literal text =>
    have h : Grown (Node.literal text : Node ρ) (.literal (text ++ "")) := .literal text ""
    rwa [String.append_empty] at h
  | deferred name payload => exact .deferred name payload
  | tree name children => exact .tree name (.refl children)

theorem GrownAll.append {before after : List (Node ρ)} (h : GrownAll before after)
    (front : List (Node ρ)) : GrownAll (front ++ before) (front ++ after) := by
  induction front with
  | nil => exact h
  | cons n front ih => exact .same n ih

theorem GrownAll.push (nodes later : List (Node ρ)) : GrownAll nodes (nodes ++ later) := by
  have h := (GrownAll.behind later).append nodes
  rwa [List.append_nil] at h

/-- Text at the end of siblings, which are given last one first. -/
theorem GrownAll.extendLatest (text : String) (latest : List (Node ρ)) :
    GrownAll latest.reverse (extendLatest text latest).reverse := by
  cases latest with
  | nil => exact .behind _
  | cons n rest =>
    cases n with
    | literal before =>
      simp only [Sentential.extendLatest, List.reverse_cons]
      exact (GrownAll.last (.literal before text) []).append rest.reverse
    | tree name children =>
      simp only [Sentential.extendLatest, List.reverse_cons]
      exact .push _ [literal text]
    | deferred name payload =>
      simp only [Sentential.extendLatest, List.reverse_cons]
      exact .push _ [literal text]

mutual

theorem Grown.leaves {n m : Node ρ} (h : Grown n m) : n.leaves <+: m.leaves :=
  match h with
  | .literal text more => by
    rw [Node.leaves, Node.leaves, String.toList_append, List.map_append]
    exact List.prefix_append _ _
  | .deferred name payload => List.prefix_rfl
  | .tree name children => by
    rw [Node.leaves, Node.leaves]
    exact children.leavesAll

theorem GrownAll.leavesAll {before after : List (Node ρ)} (h : GrownAll before after) :
    Node.leavesAll before <+: Node.leavesAll after :=
  match h with
  | .behind later => List.nil_prefix
  | .last grown later => by
    rw [Node.leavesAll, Node.leavesAll, Node.leavesAll, List.append_nil]
    exact grown.leaves.trans (List.prefix_append _ _)
  | .same n rest => by
    rw [Node.leavesAll, Node.leavesAll]
    exact (List.prefix_append_right_inj _).2 rest.leavesAll

end

theorem GrownAll.getElem? {before after : List (Node ρ)} (h : GrownAll before after) {i : Nat}
    {n : Node ρ} (hn : before[i]? = some n) : ∃ m, after[i]? = some m ∧ Grown n m := by
  induction before generalizing after i with
  | nil => simp at hn
  | cons k before ih =>
    cases i with
    | zero =>
      obtain rfl : k = n := by simpa using hn
      cases h with
      | last grown later => exact ⟨_, rfl, grown⟩
      | same _ rest => exact ⟨k, rfl, .refl k⟩
    | succ i =>
      cases h with
      | last grown later => simp at hn
      | same _ rest => exact ih rest hn

theorem Grown.keeps {n m : Node ρ} (h : Grown n m) : n.Keeps m := by
  have below : ∀ (path : List Nat) (n m : Node ρ) (above around : List (Node ρ)) (s : Spot ρ),
      Grown n m → Spot.descend? ⟨n, above⟩ path = some s →
        ∃ t, Spot.descend? ⟨m, around⟩ path = some t ∧ Grown s.node t.node := by
    intro path
    induction path with
    | nil =>
      rintro n m above around _ h ⟨⟩
      exact ⟨⟨m, around⟩, rfl, h⟩
    | cons i is ih =>
      intro n m above around s h hs
      obtain ⟨_, hchild, hs⟩ := Option.bind_eq_some_iff.1 hs
      obtain ⟨child, hget, rfl⟩ := Option.map_eq_some_iff.1 hchild
      cases h with
      | literal text more => simp [children] at hget
      | deferred name payload => simp [children] at hget
      | tree name grown =>
        obtain ⟨child', hget', hgrown⟩ := grown.getElem? hget
        obtain ⟨t, ht, hst⟩ := ih child child' _ (.tree name _ :: around) s hgrown hs
        refine ⟨t, ?_, hst⟩
        rw [Spot.descend?, Spot.child?, children, hget']
        exact ht
  exact fun path s hs => below path n m [] [] s h hs

end Node

namespace Cursor

/-- The positions that lead from the root of the document to the focus. -/
def position (c : Cursor ρ) : List Nat := c.frames.reverse.map fun f => f.before.length

/-- Nothing comes behind the trees around the focus. -/
def AtEnd (c : Cursor ρ) : Prop := ∀ f ∈ c.frames, f.after = []

theorem root_atEnd (name : String) : (root name : Cursor ρ).AtEnd := by
  intro f hf
  cases hf

theorem leave_document (c : Cursor ρ) : c.leave.document = c.document := by
  obtain ⟨name, latest, _ | ⟨frame, frames⟩, outer⟩ := c
  · rfl
  · simp [leave, document, focus, close, List.reverseAux_eq]

theorem AtEnd.leave {c : Cursor ρ} (h : c.AtEnd) : c.leave.AtEnd := by
  obtain ⟨name, latest, _ | ⟨frame, frames⟩, outer⟩ := c
  · exact h
  · exact fun f hf => h f (List.mem_cons_of_mem _ hf)

/-- The way to the focus goes along the edge when nothing comes behind it. -/
theorem AtEnd.edge {c : Cursor ρ} (h : c.AtEnd) : Node.Edge c.position c.document c.focus := by
  have along : ∀ (frames : List (Frame ρ)) (n m : Node ρ) (path : List Nat),
      (∀ f ∈ frames, f.after = []) → Node.Edge path n m →
        Node.Edge ((frames.reverse.map fun f => f.before.length) ++ path) (close n frames) m := by
    intro frames
    induction frames with
    | nil => exact fun n m path _ h => h
    | cons f frames ih =>
      intro n m path hframes h
      obtain ⟨hf, hframes⟩ := List.forall_mem_cons.1 hframes
      rw [List.reverse_cons, List.map_append, List.append_assoc, close]
      refine ih _ m _ hframes ⟨?_, n, ?_, h⟩
      · simp [Node.children, List.reverseAux_eq, hf]
      · simp [Node.children, List.reverseAux_eq]
  simpa [position, document] using along c.frames c.focus c.focus [] h rfl

/-- What a step may do at the focus. -/
inductive Touched (c : Cursor ρ) : Cursor ρ → Prop
  | kept : Touched c c
  | written (text : String) : Touched c (c.write text)
  | deferred (name : String) (payload : ρ) : Touched c (c.defer name payload)
  | entered (name : String) : Touched c (c.enter name)

theorem close_grown {n m : Node ρ} (h : n.Grown m) {frames : List (Frame ρ)}
    (hend : ∀ f ∈ frames, f.after = []) : (close n frames).Grown (close m frames) := by
  induction frames generalizing n m with
  | nil => exact h
  | cons f frames ih =>
    obtain ⟨hf, hend⟩ := List.forall_mem_cons.1 hend
    refine ih (.tree f.name ?_) hend
    rw [hf, List.reverseAux_eq, List.reverseAux_eq]
    exact (Node.GrownAll.last h []).append _

theorem Touched.atEnd {c d : Cursor ρ} (h : c.Touched d) (hc : c.AtEnd) : d.AtEnd := by
  cases h with
  | kept => exact hc
  | written text =>
    unfold write
    split <;> exact hc
  | deferred name payload => exact hc
  | entered name => exact List.forall_mem_cons.2 ⟨rfl, hc⟩

theorem Touched.grown {c d : Cursor ρ} (h : c.Touched d) (hc : c.AtEnd) :
    c.document.Grown d.document := by
  cases h with
  | kept => exact .refl _
  | written text =>
    unfold write
    split
    · exact .refl _
    · exact close_grown (.tree c.name (.extendLatest text c.latest)) hc
  | deferred name payload =>
    refine close_grown (.tree c.name ?_) hc
    rw [defer, List.reverse_cons]
    exact .push _ _
  | entered name =>
    refine close_grown (.tree c.name ?_) hc
    rw [List.reverseAux_eq]
    exact .push _ _

end Cursor

def Step.document : Step ρ → Node ρ
  | .next s => s.cursor.document
  | .done c => c.document

theorem resume_document (pending : List Pending) (c : Cursor ρ) :
    (resume pending c).document = c.document := by
  fun_induction resume pending c with
  | case1 c => rfl
  | case2 c pending ih => exact ih
  | case3 c t ts pending => rfl
  | case4 c t pending ih => exact ih
  | case5 c t n pending => rfl
  | case6 pending c ih => exact ih.trans c.leave_document

theorem resume_atEnd {pending : List Pending} {c : Cursor ρ} {s : State ρ}
    (h : resume pending c = .next s) (hc : c.AtEnd) : s.cursor.AtEnd := by
  fun_induction resume pending c with
  | case1 c => cases h
  | case2 c pending ih => exact ih h hc
  | case3 c t ts pending =>
    cases h
    exact hc
  | case4 c t pending ih => exact ih h hc
  | case5 c t n pending =>
    cases h
    exact hc
  | case6 pending c ih => exact ih h hc.leave

namespace Builder

variable {b : Builder ρ ω}

/-- A step touches the focus, and goes on with another term there or with what is pending. -/
theorem touched_of_step {s : State ρ} {x : Step ρ} {w v : ω} (h : b.step s w = (.value x, v)) :
    ∃ d, s.cursor.Touched d ∧
      ((∃ t pending, x = .next ⟨d, t, pending⟩) ∨ ∃ pending, x = resume pending d) := by
  obtain ⟨c, t, rest⟩ := s
  cases moves_of_step h with
  | literal text => exact ⟨_, .written text, .inr ⟨rest, rfl⟩⟩
  | epsilon => exact ⟨c, .kept, .inr ⟨rest, rfl⟩⟩
  | sequence terms => exact ⟨c, .kept, .inr ⟨_, rfl⟩⟩
  | alternatives options i => exact ⟨c, .kept, .inl ⟨_, rest, rfl⟩⟩
  | optional t p yes => exact ⟨c, .kept, .inr ⟨_, rfl⟩⟩
  | repetition t bounds count => exact ⟨c, .kept, .inr ⟨_, rfl⟩⟩
  | deferral given => exact ⟨_, .deferred _ _, .inr ⟨rest, rfl⟩⟩
  | definition kept defined => exact ⟨_, .entered _, .inl ⟨_, _, rfl⟩⟩
  | only means => exact ⟨_, .written _, .inr ⟨rest, rfl⟩⟩
  | any means answered => exact ⟨_, .written _, .inr ⟨rest, rfl⟩⟩

/-- The states that a run comes to. -/
inductive Reachable (b : Builder ρ ω) (s : State ρ) (w : ω) : State ρ → ω → Prop
  | start : Reachable b s w s w
  | step {t t' : State ρ} {v v' : ω} (before : Reachable b s w t v)
      (taken : b.step t v = (.value (.next t'), v')) : Reachable b s w t' v'

theorem step_grown {s : State ρ} (hs : s.cursor.AtEnd) {x : Step ρ} {w v : ω}
    (h : b.step s w = (.value x, v)) : s.cursor.document.Grown x.document := by
  obtain ⟨d, htouched, ⟨t, pending, rfl⟩ | ⟨pending, rfl⟩⟩ := touched_of_step h
  · exact htouched.grown hs
  · rw [resume_document]
    exact htouched.grown hs

theorem step_atEnd {s s' : State ρ} (hs : s.cursor.AtEnd) {w v : ω}
    (h : b.step s w = (.value (.next s'), v)) : s'.cursor.AtEnd := by
  obtain ⟨d, htouched, ⟨t, pending, hnext⟩ | ⟨pending, hnext⟩⟩ := touched_of_step h
  · cases hnext
    exact htouched.atEnd hs
  · exact resume_atEnd hnext.symm (htouched.atEnd hs)

theorem Reachable.atEnd {s t : State ρ} {w v : ω} (h : b.Reachable s w t v)
    (hs : s.cursor.AtEnd) : t.cursor.AtEnd := by
  induction h with
  | start => exact hs
  | step _ taken ih => exact step_atEnd ih taken

end Builder

end Sentential
