import Sentential.Document.Writing
import Sentential.Proofs.Growth

/-!
# Writing by recursion

A document is written by going through its nodes in order, each of them once. Its text does not
depend on how it is coalesced: nodes read as a text when their parts do, where the text of a
deferred node is left to a relation on the place and the name of that node.
-/
namespace Sentential

variable {ρ ω : Type}

namespace Node

mutual

/-- Writes a node below some trees, which are given innermost first. -/
def traverse (invoke : Spot ρ → Act ω Unit) (sink : Sink ω) (above : List (Node ρ)) :
    Node ρ → Act ω Unit
  | literal text => sink.append text
  | deferred name payload => invoke ⟨deferred name payload, above⟩
  | tree name children => traverseAll invoke sink (tree name children :: above) children

def traverseAll (invoke : Spot ρ → Act ω Unit) (sink : Sink ω) (above : List (Node ρ)) :
    List (Node ρ) → Act ω Unit
  | [] => pure ()
  | n :: rest => do
    traverse invoke sink above n
    traverseAll invoke sink above rest

end

/-- The names of the trees around a place, outermost first. -/
def namesOf (above : List (Node ρ)) : List String := above.reverse.map fun n => n.name?.getD ""

@[simp] theorem namesOf_tree (name : String) (children above : List (Node ρ)) :
    namesOf (tree name children :: above) = namesOf above ++ [name] := by
  simp [namesOf, name?]

theorem names_detached (name : String) (above : List (Node ρ)) :
    (Cursor.detached name above).names = namesOf above ++ [name] := by
  simp [Cursor.names, Cursor.detached, namesOf]

mutual

/-- The texts that a node reads as below trees with the given names. -/
def Reads (expansion : List String → String → String → Prop) (names : List String) :
    Node ρ → String → Prop
  | literal text, x => x = text
  | deferred name _, x => expansion names name x
  | tree name children, x => ReadsAll expansion (names ++ [name]) children x

def ReadsAll (expansion : List String → String → String → Prop) (names : List String) :
    List (Node ρ) → String → Prop
  | [], x => x = ""
  | n :: rest, x => ∃ y z, Reads expansion names n y ∧ ReadsAll expansion names rest z ∧ x = y ++ z

end

section Reads

variable {expansion : List String → String → String → Prop} {names : List String}

theorem reads_tree {name : String} {children : List (Node ρ)} {x : String} :
    Reads expansion names (tree name children) x ↔
      ReadsAll expansion (names ++ [name]) children x := Iff.rfl

theorem readsAll_singleton {n : Node ρ} {x : String} :
    ReadsAll expansion names [n] x ↔ Reads expansion names n x := by
  simp [ReadsAll]

theorem readsAll_joinText {text : String} {nodes : List (Node ρ)} {x : String} :
    ReadsAll expansion names (joinText text nodes) x ↔
      ∃ z, ReadsAll expansion names nodes z ∧ x = text ++ z := by
  by_cases h : text.isEmpty
  · obtain rfl : text = "" := String.isEmpty_iff.1 h
    cases nodes with
    | nil => simp [joinText]
    | cons n rest => cases n <;> simp [joinText]
  · cases nodes with
    | nil => simp [joinText, h, ReadsAll, Reads]
    | cons n rest =>
      cases n with
      | literal later =>
        constructor
        · rintro ⟨_, z, rfl, hz, rfl⟩
          exact ⟨_ ++ z, ⟨_, z, rfl, hz, rfl⟩, String.append_assoc⟩
        · rintro ⟨_, ⟨_, z, rfl, hz, rfl⟩, rfl⟩
          exact ⟨text ++ _, z, rfl, hz, String.append_assoc.symm⟩
      | _ => simp [joinText, h, ReadsAll, Reads]

mutual

theorem reads_coalesced (n : Node ρ) {names : List String} {x : String} :
    Reads expansion names (coalesced n) x ↔ Reads expansion names n x :=
  match n with
  | literal text => Iff.rfl
  | deferred name payload => Iff.rfl
  | tree name children => by
    rw [coalesced, Reads, Reads]
    exact readsAll_coalesce children

/-- What a forest reads as does not depend on whether it is coalesced. -/
theorem readsAll_coalesce (forest : List (Node ρ)) {names : List String} {x : String} :
    ReadsAll expansion names (coalesce forest) x ↔ ReadsAll expansion names forest x :=
  match forest with
  | [] => by rw [coalesce_nil]
  | n :: rest => by
    have later : ∀ z, ReadsAll expansion names (coalesce rest) z ↔ ReadsAll expansion names rest z :=
      fun z => readsAll_coalesce rest
    have here : ∀ z, Reads expansion names (coalesced n) z ↔ Reads expansion names n z :=
      fun z => reads_coalesced n
    cases n with
    | literal text => simp [ReadsAll, Reads, readsAll_joinText, later]
    | tree name children => simpa [ReadsAll, later, coalesced] using by simp [← here, coalesced]
    | deferred name payload => simp [ReadsAll, later]

end

theorem readsAll_append {f g : List (Node ρ)} {x : String} :
    ReadsAll expansion names (f ++ g) x ↔
      ∃ y z, ReadsAll expansion names f y ∧ ReadsAll expansion names g z ∧ x = y ++ z := by
  induction f generalizing x with
  | nil => simp [ReadsAll]
  | cons n f ih =>
    simp only [List.cons_append, ReadsAll, ih]
    constructor
    · rintro ⟨y, _, hn, ⟨u, v, hu, hv, rfl⟩, rfl⟩
      exact ⟨y ++ u, v, ⟨y, u, hn, hu, rfl⟩, hv, (String.append_assoc).symm⟩
    · rintro ⟨_, v, ⟨y, u, hn, hu, rfl⟩, hv, rfl⟩
      exact ⟨y, u ++ v, hn, ⟨u, v, hu, hv, rfl⟩, String.append_assoc⟩

end Reads

end Node

namespace Writing

/-- Layers are written one after another, each from left to right. -/
theorem run_eq_traverse (invoke : Spot ρ → Act ω Unit) (sink : Sink ω) (layers : List (Layer ρ)) :
    run invoke sink layers =
      layers.forM fun layer => Node.traverseAll invoke sink layer.above layer.nodes := by
  fun_induction run invoke sink layers with
  | case1 => rfl
  | case2 above rest ih => simp [ih, Node.traverseAll]
  | case3 above rest text nodes ih => simp [ih, Node.traverseAll, Node.traverse]
  | case4 above rest name payload nodes ih => simp [ih, Node.traverseAll, Node.traverse]
  | case5 above rest name children nodes ih => simp [ih, Node.traverseAll, Node.traverse]

end Writing

theorem Spot.write_eq_traverse (invoke : Spot ρ → Act ω Unit) (sink : Sink ω) (n : Node ρ)
    (above : List (Node ρ)) :
    Spot.write invoke sink ⟨n, above⟩ = n.traverse invoke sink above := by
  simp [Spot.write, Writing.run_eq_traverse, Node.traverseAll]

namespace Transcript

variable (p : Part ω Transcript)

/-- The text in a part of the world. -/
def textAt (w : ω) : String := (p.get w).text

theorem textAt_append (text : String) (w : ω) :
    textAt p (p.modify (.append text) w) = textAt p w ++ text := by
  simp [textAt, Part.modify, p.get_set, Transcript.text, Transcript.append, String.join_append]

end Transcript

namespace Node

open Transcript

variable {p : Part ω Transcript} {invoke : Spot ρ → Act ω Unit}
  {expansion : List String → String → String → Prop}

mutual

/-- What has been written is a text that the node reads as, when this holds of its deferred
nodes. -/
theorem reads_of_traverse
    (each : ∀ name payload above w v, invoke ⟨deferred name payload, above⟩ w = (.value (), v) →
      ∃ x, expansion (namesOf above) name x ∧ textAt p v = textAt p w ++ x)
    (n : Node ρ) {above : List (Node ρ)} {w v : ω}
    (h : n.traverse invoke (.transcript p) above w = (.value (), v)) :
    ∃ x, n.Reads expansion (namesOf above) x ∧ textAt p v = textAt p w ++ x :=
  match n with
  | literal text => by
    cases h
    exact ⟨text, rfl, textAt_append p text w⟩
  | deferred name payload => each name payload above w v h
  | tree name children => by
    simp only [reads_tree, ← namesOf_tree name children]
    exact readsAll_of_traverse each children h

theorem readsAll_of_traverse
    (each : ∀ name payload above w v, invoke ⟨deferred name payload, above⟩ w = (.value (), v) →
      ∃ x, expansion (namesOf above) name x ∧ textAt p v = textAt p w ++ x)
    (forest : List (Node ρ)) {above : List (Node ρ)} {w v : ω}
    (h : traverseAll invoke (.transcript p) above forest w = (.value (), v)) :
    ∃ x, ReadsAll expansion (namesOf above) forest x ∧ textAt p v = textAt p w ++ x :=
  match forest with
  | [] => by
    cases h
    exact ⟨"", rfl, String.append_empty.symm⟩
  | n :: rest => by
    rw [traverseAll] at h
    obtain ⟨_, u, hn, hrest⟩ := Act.bind_eq_value_iff.1 h
    obtain ⟨y, hy, hu⟩ := reads_of_traverse each n hn
    obtain ⟨z, hz, hv⟩ := readsAll_of_traverse each rest hrest
    exact ⟨y ++ z, ⟨y, z, hy, hz, rfl⟩, by rw [hv, hu, String.append_assoc]⟩

end

section Stages

/-! Invocations may come in stages of some size, with those of the deferred nodes succeeding from
some size on. -/

variable {ι : Type} (stage : ι → Spot ρ → Act ω Unit) (size : ι → Nat)

mutual

/-- A node that reads as a text can be written, and that text is what it adds, when this holds of
its deferred nodes. -/
theorem traverse_of_reads
    (each : ∀ names name x, expansion names name x → ∀ above payload w, namesOf above = names →
      ∃ v m, textAt p v = textAt p w ++ x ∧
        ∀ i, m ≤ size i → stage i ⟨deferred name payload, above⟩ w = (.value (), v))
    (n : Node ρ) {above : List (Node ρ)} {x : String} (h : n.Reads expansion (namesOf above) x)
    (w : ω) : ∃ v m, textAt p v = textAt p w ++ x ∧
      ∀ i, m ≤ size i → n.traverse (stage i) (.transcript p) above w = (.value (), v) :=
  match n with
  | literal _ => by
    cases h
    exact ⟨_, 0, textAt_append p x w, fun _ _ => rfl⟩
  | deferred name payload => each _ name x h above payload w rfl
  | tree name children => by
    rw [reads_tree, ← namesOf_tree name children] at h
    exact traverseAll_of_readsAll each children h w

theorem traverseAll_of_readsAll
    (each : ∀ names name x, expansion names name x → ∀ above payload w, namesOf above = names →
      ∃ v m, textAt p v = textAt p w ++ x ∧
        ∀ i, m ≤ size i → stage i ⟨deferred name payload, above⟩ w = (.value (), v))
    (forest : List (Node ρ)) {above : List (Node ρ)} {x : String}
    (h : ReadsAll expansion (namesOf above) forest x) (w : ω) :
    ∃ v m, textAt p v = textAt p w ++ x ∧
      ∀ i, m ≤ size i → traverseAll (stage i) (.transcript p) above forest w = (.value (), v) :=
  match forest with
  | [] => by
    cases h
    exact ⟨w, 0, String.append_empty.symm, fun _ _ => rfl⟩
  | n :: rest => by
    obtain ⟨y, z, hy, hz, rfl⟩ := h
    obtain ⟨u, l, hu, hn⟩ := traverse_of_reads each n hy w
    obtain ⟨v, m, hv, hrest⟩ := traverseAll_of_readsAll each rest hz u
    refine ⟨v, max l m, by rw [hv, hu, String.append_assoc], fun i hi => ?_⟩
    have hl : l ≤ size i := Nat.le_trans (Nat.le_max_left l m) hi
    have hm : m ≤ size i := Nat.le_trans (Nat.le_max_right l m) hi
    rw [traverseAll]
    exact Act.bind_eq_value_iff.2 ⟨(), u, hn i hl, hrest i hm⟩

end

end Stages

end Node

end Sentential
