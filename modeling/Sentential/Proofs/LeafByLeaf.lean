import Sentential.Policy.Script
import Sentential.Proofs.Invocations
import Sentential.Proofs.Layers
import Sentential.Proofs.Order

/-!
# Writing leaf by leaf

A document is written by going through its leaves in the order of their places. At each of them
something is done once: the text of a literal is appended, or a deferred node is invoked where it
stands. The first leaf where that does not succeed ends the writing, and nothing behind it is
touched. A sentence is only written when its document has been made, so a generator that fails to
make it leaves the sink alone and runs no replacement.
-/
namespace Sentential

variable {ρ κ ω α : Type}

namespace Node

mutual

/-- The literals and the deferred nodes of a document in order, each with the trees around it. -/
def tips (above : List (Node ρ)) : Node ρ → List (Spot ρ)
  | literal text => [⟨literal text, above⟩]
  | deferred name payload => [⟨deferred name payload, above⟩]
  | tree name children => tipsAll (tree name children :: above) children

def tipsAll (above : List (Node ρ)) : List (Node ρ) → List (Spot ρ)
  | [] => []
  | n :: rest => tips above n ++ tipsAll above rest

end

theorem tipsAll_eq_flatMap (above nodes : List (Node ρ)) :
    tipsAll above nodes = nodes.flatMap (tips above) := by
  induction nodes with
  | nil => rfl
  | cons n rest ih => rw [tipsAll, List.flatMap_cons, ih]

end Node

namespace Spot

/-- Whether a node is written as a whole, which is when it is no tree. -/
def IsTip (s : Spot ρ) : Prop := s.node.isTree = false

/-- What writing does at a literal or a deferred node. -/
def effect (invoke : Spot ρ → Act ω Unit) (sink : Sink ω) (s : Spot ρ) : Act ω Unit :=
  match s.node with
  | .literal text => sink.append text
  | .deferred _ _ => invoke s
  | .tree _ _ => pure ()

theorem descend?_tip {s : Spot ρ} (h : s.node.children = []) {place : List Nat} {t : Spot ρ} :
    s.descend? place = some t ↔ place = [] ∧ t = s := by
  cases place with
  | nil => simp [descend?, eq_comm]
  | cons i place => simp [descend?, child?, h]

theorem descend?_tree {name : String} {children above : List (Node ρ)} {i : Nat} {place : List Nat}
    {t : Spot ρ} : descend? ⟨.tree name children, above⟩ (i :: place) = some t ↔
      ∃ n, children[i]? = some n ∧ descend? ⟨n, .tree name children :: above⟩ place = some t := by
  simp only [descend?, child?, Node.children, Option.bind_map]
  exact Option.bind_eq_some_iff

theorem single_inOrder {s : Spot ρ} (tip : s.IsTip) (h : s.node.children = []) :
    InOrder (· < ·) (fun place t => s.descend? place = some t ∧ t.IsTip) [s] := by
  have nothing : InOrder (fun i j : List Nat => i < j) (fun _ (_ : Spot ρ) => False) [] :=
    .nil fun _ _ => id
  refine (nothing.cons (i := []) (x := s) fun _ _ => False.elim).congr fun place t => ?_
  rw [descend?_tip h, or_false]
  constructor
  · rintro ⟨rfl, rfl⟩
    exact ⟨⟨rfl, rfl⟩, tip⟩
  · exact And.left

end Spot

/-- The tips of a node are what is no tree at or below it, in the order of the places. -/
theorem Node.tips_inOrder (n : Node ρ) (above : List (Node ρ)) :
    InOrder (· < ·) (fun place t => Spot.descend? ⟨n, above⟩ place = some t ∧ t.IsTip)
      (n.tips above) := by
  cases n with
  | literal text => exact Spot.single_inOrder rfl rfl
  | deferred name payload => exact Spot.single_inOrder rfl rfl
  | tree name children =>
    have inside := InOrder.siblings children
      (fun n _ => tips_inOrder n (tree name children :: above)) 0
    rw [tips, tipsAll_eq_flatMap]
    refine inside.congr fun place t => ?_
    cases place with
    | nil =>
      constructor
      · rintro ⟨i, m, inner, heq, -⟩
        cases heq
      · rintro ⟨h, tip⟩
        cases h
        cases tip
    | cons i place =>
      rw [Spot.descend?_tree]
      constructor
      · rintro ⟨j, m, inner, heq, hm, ht, tip⟩
        cases heq
        exact ⟨⟨m, by rwa [Nat.zero_add], ht⟩, tip⟩
      · rintro ⟨⟨m, hm, ht⟩, tip⟩
        exact ⟨i, m, place, by rw [Nat.zero_add], hm, ht, tip⟩

/-- Each of some acts succeeds in the world that the one before has left. -/
inductive Act.Thread (f : α → Act ω Unit) : List α → ω → ω → Prop
  | nil (w : ω) : Thread f [] w w
  | cons {x : α} {xs : List α} {w u v : ω} (first : f x w = (.value (), u))
      (rest : Thread f xs u v) : Thread f (x :: xs) w v

/-- A series of acts ends with the last one, or with the first that does not succeed. -/
theorem Act.forM_eq_iff {f : α → Act ω Unit} {xs : List α} {w v : ω} {r : Outcome Unit} :
    xs.forM f w = (r, v) ↔ r = .value () ∧ Act.Thread f xs w v ∨
      ∃ before x after u, xs = before ++ x :: after ∧ Act.Thread f before w u ∧
        f x u = (r, v) ∧ r ≠ .value () := by
  induction xs generalizing w with
  | nil =>
    constructor
    · intro h
      cases h
      exact .inl ⟨rfl, .nil _⟩
    · rintro (⟨rfl, ⟨⟩⟩ | ⟨before, x, after, u, h, -⟩)
      · rfl
      · cases before <;> cases h
  | cons x xs ih =>
    rw [List.forM_eq_forM, List.forM_cons, ← List.forM_eq_forM, Act.bind_run]
    constructor
    · intro h
      rcases hx : f x w with ⟨_ | why | _, u⟩ <;> rw [hx] at h
      · rcases ih.1 h with ⟨hr, thread⟩ | ⟨before, y, after, u', rfl, thread, hy, hr⟩
        · exact .inl ⟨hr, .cons hx thread⟩
        · exact .inr ⟨x :: before, y, after, u', rfl, .cons hx thread, hy, hr⟩
      all_goals
        cases h
        exact .inr ⟨[], x, xs, w, rfl, .nil w, hx, nofun⟩
    · rintro (⟨rfl, thread⟩ | ⟨before, y, after, u, heq, thread, hy, hr⟩)
      · obtain ⟨⟩ | ⟨hx, thread⟩ := thread
        rw [hx]
        exact ih.2 (.inl ⟨rfl, thread⟩)
      · obtain ⟨⟩ | ⟨hx, thread⟩ := thread
        · obtain ⟨rfl, rfl⟩ := List.cons.inj heq
          rw [hy]
          rcases r with ⟨⟨⟩⟩ | why | _
          · exact absurd rfl hr
          all_goals rfl
        · obtain ⟨rfl, rfl⟩ := List.cons.inj heq
          rw [hx]
          exact ih.2 (.inr ⟨_, y, after, u, rfl, thread, hy, hr⟩)

namespace Node

variable (invoke : Spot ρ → Act ω Unit) (sink : Sink ω)

mutual

theorem traverse_eq_forM (n : Node ρ) (above : List (Node ρ)) :
    n.traverse invoke sink above = (n.tips above).forM (Spot.effect invoke sink) :=
  match n with
  | literal text => by simp [traverse, tips, Spot.effect]
  | deferred name payload => by simp [traverse, tips, Spot.effect]
  | tree name children => traverseAll_eq_forM children (tree name children :: above)

/-- Going through a document by recursion comes to the same as going through its tips. -/
theorem traverseAll_eq_forM (nodes above : List (Node ρ)) :
    traverseAll invoke sink above nodes =
      (tipsAll above nodes).forM (Spot.effect invoke sink) :=
  match nodes with
  | [] => rfl
  | n :: rest => by
    rw [traverseAll, tipsAll, traverse_eq_forM n, traverseAll_eq_forM rest]
    simp

end

end Node

/-- The texts of the literals of a document, in order. -/
def Node.texts (n : Node ρ) : List String := (n.tips []).filterMap fun s => s.node.text?

namespace Node

mutual

theorem places_eq_filter (n : Node ρ) (above : List (Node ρ)) :
    n.places above = (n.tips above).filter fun s => s.node.isDeferred :=
  match n with
  | literal _ => rfl
  | deferred _ _ => rfl
  | tree name children => placesAll_eq_filter children (tree name children :: above)

theorem placesAll_eq_filter (nodes above : List (Node ρ)) :
    placesAll above nodes = (tipsAll above nodes).filter fun s => s.node.isDeferred :=
  match nodes with
  | [] => rfl
  | n :: rest => by
    rw [placesAll, tipsAll, List.filter_append, places_eq_filter n, placesAll_eq_filter rest]

end

theorem isTip_of_mem_tips {n : Node ρ} {above : List (Node ρ)} {s : Spot ρ}
    (h : s ∈ n.tips above) : s.IsTip := by
  obtain ⟨placed, htips, -, mem⟩ := n.tips_inOrder above
  rw [← htips] at h
  obtain ⟨a, ha, rfl⟩ := List.mem_map.1 h
  exact ((mem a.1 a.2).1 ha).2

theorem isLiteral_of_mem_tips {n : Node ρ} {above : List (Node ρ)} (h : n.places above = [])
    {s : Spot ρ} (hs : s ∈ n.tips above) : s.node.isLiteral = true := by
  rw [places_eq_filter, List.filter_eq_nil_iff] at h
  have htip : s.node.isTree = false := isTip_of_mem_tips hs
  have hdeferred := h s hs
  generalize s.node = m at htip hdeferred ⊢
  cases m with
  | literal text => rfl
  | deferred name payload => exact absurd rfl hdeferred
  | tree name children => cases htip

end Node

/-- Literals are appended one after another to a sink that never fails. -/
theorem Spot.forM_effect_steady (invoke : Spot ρ → Act ω Unit) (sink : Steady ω)
    {tips : List (Spot ρ)} (h : ∀ s ∈ tips, s.node.isLiteral = true) (w : ω) :
    tips.forM (Spot.effect invoke sink.sink) w = (.value (),
      (tips.filterMap fun s => s.node.text?).foldl (fun v text => sink.append text v) w) := by
  induction tips generalizing w with
  | nil => rfl
  | cons s tips ih =>
    obtain ⟨hs, htips⟩ := List.forall_mem_cons.1 h
    obtain ⟨⟨_⟩ | text | ⟨_⟩, above⟩ := s
    · cases hs
    · exact ih htips (sink.append text w)
    · cases hs

namespace Generator

variable {g : Generator κ ω}

/-- Which productions are deferred depends on the names of the replacements alone. -/
theorem deferral_eq (g : Generator κ ω) (context : κ) (name : String) :
    (g.builder context).deferral name =
      ((g.replacements.map Replacement.production).reverse.find? fun p => p = name).map
        fun _ => context := by
  rw [← List.map_reverse, List.find?_map, Option.map_map]
  rfl

/-- What replacements do has no part in making a document. -/
theorem document_replacements {rs : List (Replacement κ ω)}
    (h : rs.map Replacement.production = g.replacements.map Replacement.production)
    (start : String) : { g with replacements := rs }.document start = g.document start := by
  have hbuilder (context : κ) :
      { g with replacements := rs }.builder context = g.builder context := by
    have hdeferral : ({ g with replacements := rs }.builder context).deferral =
        (g.builder context).deferral := by
      funext name
      rw [deferral_eq, deferral_eq, h]
    exact congrArg (fun deferral => { g.builder context with deferral }) hdeferral
  simp only [document, hbuilder]

theorem places_document (none : g.replacements = []) {start : String} {w v : ω} {n : Node κ}
    (h : g.document start w = (.value n, v)) : n.places [] = [] := by
  obtain ⟨definition, context, u, c, u', -, -, hbuild, rfl, -⟩ := document_eq_value_iff.1 h
  obtain ⟨d, rfl, -⟩ := Builder.exists_derivation_of_build hbuild
  have hreferences : d.references [start] = [] := by
    refine List.eq_nil_iff_forall_not_mem.2 fun x hx => ?_
    have hx := d.deferral_of_mem hx
    rw [deferral_eq, none] at hx
    cases hx
  have hplaces := d.places_document start []
  rw [Cursor.document_grow rfl rfl, ← List.map_eq_nil_iff]
  exact hplaces.trans (congrArg (List.map some) hreferences)

/-- A sentence is written and flushed once its document has been made. -/
theorem sentence_of_document {start : String} {sink : Sink ω} {w u : ω} {n : Node κ}
    (h : g.document start w = (.value n, u)) :
    g.sentence start sink w = (g.write sink n >>= fun _ => sink.flush) u :=
  Act.bind_value h

/-- Without replacements, a sink that never fails gets the texts of the document one by one. -/
theorem sentence_steady (none : g.replacements = []) (sink : Steady ω) {start : String} {w u : ω}
    {n : Node κ} (h : g.document start w = (.value n, u)) :
    g.sentence start sink.sink w = (.value (),
      sink.flush (n.texts.foldl (fun v text => sink.append text v) u)) := by
  have hwrite : g.write sink.sink n u =
      (.value (), n.texts.foldl (fun v text => sink.append text v) u) := by
    rw [write, Spot.write_eq_traverse, Node.traverse_eq_forM]
    exact Spot.forM_effect_steady _ sink
      (fun s hs => Node.isLiteral_of_mem_tips (places_document none h) hs) u
  rw [sentence_of_document h, Act.bind_value hwrite]
  rfl

end Generator

/-- Writing goes through the leaves of a document in order, each of them once, up to the first where
appending or invoking does not succeed. Where a document cannot be made, its sentence is given up in
the same way whatever the sink is and whatever the replacements do, and without replacements a sink
that never fails gets all the texts of the document or nothing. -/
theorem Generator.writes_leaf_by_leaf (g : Generator κ ω) :
    (∀ (invoke : Spot κ → Act ω Unit) (sink : Sink ω) (n : Node κ) (above : List (Node κ)),
      Spot.write invoke sink ⟨n, above⟩ = n.traverse invoke sink above ∧
      InOrder (· < ·) (fun place s => Spot.descend? ⟨n, above⟩ place = some s ∧ s.IsTip)
        (n.tips above) ∧
      ∀ w r v, Spot.write invoke sink ⟨n, above⟩ w = (r, v) ↔
        r = .value () ∧ Act.Thread (Spot.effect invoke sink) (n.tips above) w v ∨
        ∃ before s after u, n.tips above = before ++ s :: after ∧
          Act.Thread (Spot.effect invoke sink) before w u ∧
          s.effect invoke sink u = (r, v) ∧ r ≠ .value ()) ∧
    (∀ start w why v, g.document start w = (.failed why, v) →
      ∀ (rs : List (Replacement κ ω)) (sink : Sink ω),
        rs.map Replacement.production = g.replacements.map Replacement.production →
        { g with replacements := rs }.sentence start sink w = (.failed why, v)) ∧
    (g.replacements = [] → ∀ (sink : Steady ω) start w,
      (∃ n u, g.document start w = (.value n, u) ∧ (∀ s ∈ n.tips [], s.node.isLiteral = true) ∧
        g.sentence start sink.sink w = (.value (),
          sink.flush (n.texts.foldl (fun v text => sink.append text v) u))) ∨
      (∃ why v, g.document start w = (.failed why, v) ∧
        g.sentence start sink.sink w = (.failed why, v)) ∨
      ∃ v, g.document start w = (.unfinished, v) ∧
        g.sentence start sink.sink w = (.unfinished, v)) := by
  refine ⟨fun invoke sink n above => ?_, fun start w why v h rs sink names => ?_,
    fun none sink start w => ?_⟩
  · have hwrite := Spot.write_eq_traverse invoke sink n above
    refine ⟨hwrite, n.tips_inOrder above, fun w r v => ?_⟩
    rw [hwrite, Node.traverse_eq_forM]
    exact Act.forM_eq_iff
  · rw [← document_replacements names] at h
    exact Act.bind_failed h
  · rcases h : g.document start w with ⟨n | why | _, u⟩
    · exact .inl ⟨n, u, rfl, fun s hs => Node.isLiteral_of_mem_tips (places_document none h) hs,
        sentence_steady none sink h⟩
    · exact .inr (.inl ⟨why, u, rfl, Act.bind_failed h⟩)
    · exact .inr (.inr ⟨u, rfl, Act.bind_unfinished h⟩)

/-- A mark between two letters, and a text that cannot go on. -/
def Generator.marked (replacements : List (Replacement Unit Transcript)) :
    Generator Unit Transcript where
  grammar :=
    { language := "call"
      productions :=
        ((Catalogue.empty.insert "mark" .epsilon).insert
          "cut" (.sequence [.literal "a", .reference "mark", .characters ⟨"EOI", []⟩])).insert
          "call" (.sequence [.literal "a", .reference "mark", .literal "b"]) }
  policy := .scripted .empty
  replacements := replacements
  context := pure ()
  log := .silent
  budget := 10

/-- The letter in front of a mark that fails is all that is appended, a text that cannot go on is not
begun, and without replacements both letters are written. -/
theorem Generator.writes_leaf_by_leaf_marked :
    Spot.write ((marked [⟨"mark", fun _ => Act.fail .noAlternatives⟩]).invoke (.transcript .whole) 1)
        (.transcript .whole) ⟨.tree "call" [.literal "a", .deferred "mark" (), .literal "b"], []⟩
        .empty = (.failed .noAlternatives, ⟨["a"]⟩) ∧
      (∀ (run : Invocation Unit Transcript → Act Transcript Unit) (sink : Sink Transcript) t,
        (marked [⟨"mark", run⟩]).sentence "cut" sink t = (.failed .endOfInput, t)) ∧
      ∃ n, (marked []).document "call" .empty = (.value n, .empty) ∧ n.texts = ["a", "b"] ∧
        (marked []).sentence "call" (Steady.mk Transcript.append id).sink .empty =
          (.value (), ⟨["b", "a"]⟩) := by
  refine ⟨?_, fun run sink t => ?_, ?_⟩
  · have inOrder := (writes_leaf_by_leaf (marked [⟨"mark", fun _ => Act.fail .noAlternatives⟩])).1
      ((marked [⟨"mark", fun _ => Act.fail .noAlternatives⟩]).invoke (.transcript .whole) 1)
      (.transcript .whole) (.tree "call" [.literal "a", .deferred "mark" (), .literal "b"]) []
    refine (inOrder.2.2 _ _ _).2 (.inr ⟨_, _, _, _, rfl, .cons rfl (.nil _), rfl, nofun⟩)
  · exact (writes_leaf_by_leaf (marked [⟨"mark", fun _ => Act.fail .noAlternatives⟩])).2.1 "cut" t
      .endOfInput t rfl [⟨"mark", run⟩] sink rfl
  · have hdocument : (marked []).document "call" .empty =
        (.value (.tree "call" [.literal "a", .tree "mark" [], .literal "b"]), .empty) := by rfl
    refine ⟨_, hdocument, rfl, ?_⟩
    rcases (writes_leaf_by_leaf (marked [])).2.2 rfl ⟨Transcript.append, id⟩ "call" .empty with
      ⟨n, u, hn, -, hsentence⟩ | ⟨why, v, hn, -⟩ | ⟨v, hn, -⟩ <;> cases hdocument.symm.trans hn
    exact hsentence

end Sentential
