import Sentential.Proofs.Derivation
import Sentential.Proofs.Documents

/-!
# Invocations

A replacement sees where it stands and which run the document comes from. Ground truth for the place
is the derivation that a document or an expansion follows: it says which productions a reference is
nested in. The context is the one that was made when the document was. Both are right whenever a
replacement runs, in documents and in the expansions of other replacements, however documents are
made and written in turn. So it makes no difference what replacements would do at any other
invocation: there is none.
-/
namespace Sentential

variable {ρ κ ω : Type}

/-- A reference that is left to a replacement, with the productions that it is nested in, outermost
first. -/
structure Reference (ρ : Type) where
  enclosing : List String
  name : String
  payload : ρ

def Reference.path (x : Reference ρ) : List String := x.enclosing ++ [x.name]

/-- The reference that a deferred node stands for. -/
def Spot.reference? (s : Spot ρ) : Option (Reference ρ) :=
  match s.node with
  | .deferred name payload => some ⟨Node.namesOf s.above, name, payload⟩
  | _ => none

theorem Spot.of_reference? {s : Spot ρ} {x : Reference ρ} (h : s.reference? = some x) :
    s.node = .deferred x.name x.payload ∧ x.enclosing = Node.namesOf s.above := by
  obtain ⟨n, above⟩ := s
  cases n with
  | tree name children => cases h
  | literal text => cases h
  | deferred name payload =>
    cases h
    exact ⟨rfl, rfl⟩

theorem Spot.names_of_reference? {s : Spot ρ} {x : Reference ρ} (h : s.reference? = some x) :
    s.names = x.path := by
  obtain ⟨hnode, henclosing⟩ := of_reference? h
  rw [names, List.reverse_cons, List.map_append, Reference.path, henclosing, hnode]
  rfl

namespace Node

mutual

/-- The deferred nodes of a document in order, each with the trees around it. -/
def places (above : List (Node ρ)) : Node ρ → List (Spot ρ)
  | literal _ => []
  | deferred name payload => [⟨deferred name payload, above⟩]
  | tree name children => placesAll (tree name children :: above) children

def placesAll (above : List (Node ρ)) : List (Node ρ) → List (Spot ρ)
  | [] => []
  | n :: rest => places above n ++ placesAll above rest

end

mutual

/-- The references that the nodes of a document stand for, below trees with the given names. -/
def references (names : List String) : Node ρ → List (Reference ρ)
  | literal _ => []
  | deferred name payload => [⟨names, name, payload⟩]
  | tree name children => referencesAll (names ++ [name]) children

def referencesAll (names : List String) : List (Node ρ) → List (Reference ρ)
  | [] => []
  | n :: rest => references names n ++ referencesAll names rest

end

theorem referencesAll_append (names : List String) (f g : List (Node ρ)) :
    referencesAll names (f ++ g) = referencesAll names f ++ referencesAll names g := by
  induction f with
  | nil => rfl
  | cons n f ih => rw [List.cons_append, referencesAll, referencesAll, ih, List.append_assoc]

theorem referencesAll_joinText (names : List String) (text : String) (nodes : List (Node ρ)) :
    referencesAll names (joinText text nodes) = referencesAll names nodes := by
  by_cases h : text.isEmpty
  · cases nodes with
    | nil => simp [joinText, h]
    | cons n rest => cases n <;> simp [joinText, h, referencesAll, references]
  · cases nodes with
    | nil => simp [joinText, h, referencesAll, references]
    | cons n rest => cases n <;> simp [joinText, h, referencesAll, references]

mutual

theorem references_coalesced (n : Node ρ) (names : List String) :
    references names (coalesced n) = references names n :=
  match n with
  | literal text => rfl
  | deferred name payload => rfl
  | tree name children => by
    rw [coalesced, references, references]
    exact referencesAll_coalesce children (names ++ [name])

theorem referencesAll_coalesce (forest : List (Node ρ)) (names : List String) :
    referencesAll names (coalesce forest) = referencesAll names forest :=
  match forest with
  | [] => by rw [coalesce_nil]
  | n :: rest => by
    have later := referencesAll_coalesce rest names
    have here := references_coalesced n names
    cases n with
    | literal text => rw [coalesce_literal, referencesAll_joinText, later]; rfl
    | tree name children =>
      rw [coalesced] at here
      rw [coalesce_tree, referencesAll, referencesAll, here, later]
    | deferred name payload => rw [coalesce_deferred, referencesAll, referencesAll, later]

end

mutual

theorem places_reference? (n : Node ρ) (above : List (Node ρ)) :
    (n.places above).map Spot.reference? = (n.references (namesOf above)).map some :=
  match n with
  | literal text => rfl
  | deferred name payload => rfl
  | tree name children => by
    rw [places, references, ← namesOf_tree name children]
    exact placesAll_reference? children _

theorem placesAll_reference? (nodes above : List (Node ρ)) :
    (placesAll above nodes).map Spot.reference? =
      (referencesAll (namesOf above) nodes).map some :=
  match nodes with
  | [] => rfl
  | n :: rest => by
    rw [placesAll, referencesAll, List.map_append, List.map_append, places_reference? n,
      placesAll_reference? rest]

end

section Traverse

variable {i j : Spot ρ → Act ω Unit} {sink : Sink ω}

mutual

/-- Writing a document invokes nothing but its deferred nodes. -/
theorem traverse_congr (n : Node ρ) {above : List (Node ρ)} (h : ∀ s ∈ n.places above, i s = j s) :
    n.traverse i sink above = n.traverse j sink above :=
  match n with
  | literal text => rfl
  | deferred name payload => h _ List.mem_cons_self
  | tree name children => by
    rw [traverse, traverse]
    exact traverseAll_congr children h

theorem traverseAll_congr (nodes : List (Node ρ)) {above : List (Node ρ)}
    (h : ∀ s ∈ placesAll above nodes, i s = j s) :
    traverseAll i sink above nodes = traverseAll j sink above nodes :=
  match nodes with
  | [] => rfl
  | n :: rest => by
    obtain ⟨hn, hrest⟩ := List.forall_mem_append.1 h
    rw [traverseAll, traverseAll, traverse_congr n hn, traverseAll_congr rest hrest]

end

end Traverse

end Node

section References

variable {g : Grammar} {deferral : String → Option ρ}

mutual

/-- The references that a derivation leaves to replacements, in order, each with the productions
that it is nested in. -/
def Derivation.references (names : List String) {t : Term} :
    Derivation g deferral t → List (Reference ρ)
  | .literal _ => []
  | .epsilon => []
  | .sequence parts => parts.references names
  | .alternatives _ _ taken => taken.references names
  | .optional _ _ _ parts => parts.references names
  | .repetition _ _ _ parts => parts.references names
  | .reference name _ _ inner => inner.references (names ++ [name])
  | .deferred name payload _ => [⟨names, name, payload⟩]
  | .only _ _ _ => []
  | .any _ _ _ => []

def Derivations.references (names : List String) {ts : List Term} :
    Derivations g deferral ts → List (Reference ρ)
  | .nil => []
  | .cons first rest => first.references names ++ rest.references names

end

mutual

/-- The forest of a derivation has a node for every reference that is left, in the trees of the
productions that the reference is nested in. -/
theorem Derivation.referencesAll_forest {t : Term} (d : Derivation g deferral t)
    (names : List String) : Node.referencesAll names d.forest = d.references names :=
  match d with
  | .literal text => rfl
  | .epsilon => rfl
  | .sequence parts => parts.referencesAll_forest names
  | .alternatives _ _ taken => taken.referencesAll_forest names
  | .optional _ _ _ parts => parts.referencesAll_forest names
  | .repetition _ _ _ parts => parts.referencesAll_forest names
  | .reference name _ _ inner => by
    rw [Derivation.forest, Node.referencesAll, Node.references, Node.referencesAll, List.append_nil]
    exact inner.referencesAll_forest (names ++ [name])
  | .deferred name payload _ => rfl
  | .only _ char _ => rfl
  | .any _ char _ => rfl

theorem Derivations.referencesAll_forest {ts : List Term} (ds : Derivations g deferral ts)
    (names : List String) : Node.referencesAll names ds.forest = ds.references names :=
  match ds with
  | .nil => rfl
  | .cons first rest => by
    rw [Derivations.forest, Derivations.references, Node.referencesAll_append, first.referencesAll_forest names,
      rest.referencesAll_forest names]

end

mutual

/-- What is left to replacements has the payload that it was deferred with. -/
theorem Derivation.deferral_of_mem {t : Term} (d : Derivation g deferral t) {names : List String}
    {x : Reference ρ} (h : x ∈ d.references names) : deferral x.name = some x.payload :=
  match d with
  | .literal text => nomatch h
  | .epsilon => nomatch h
  | .sequence parts => parts.deferral_of_mem h
  | .alternatives _ _ taken => taken.deferral_of_mem h
  | .optional _ _ _ parts => parts.deferral_of_mem h
  | .repetition _ _ _ parts => parts.deferral_of_mem h
  | .reference name _ _ inner => inner.deferral_of_mem h
  | .deferred name payload given => by
    cases List.mem_singleton.1 h
    exact given
  | .only _ char _ => nomatch h
  | .any _ char _ => nomatch h

theorem Derivations.deferral_of_mem {ts : List Term} (ds : Derivations g deferral ts)
    {names : List String} {x : Reference ρ} (h : x ∈ ds.references names) :
    deferral x.name = some x.payload :=
  match ds with
  | .nil => nomatch h
  | .cons first rest => by
    rcases List.mem_append.1 h with h | h
    · exact first.deferral_of_mem h
    · exact rest.deferral_of_mem h

end

theorem Derivation.places_document {t : Term} (d : Derivation g deferral t) (name : String)
    (above : List (Node ρ)) :
    ((Node.tree name (Node.coalesce d.forest)).places above).map Spot.reference? =
      (d.references (Node.namesOf above ++ [name])).map some := by
  rw [Node.places_reference?, Node.references, Node.referencesAll_coalesce,
    d.referencesAll_forest]

/-- Each deferred node is where the derivation has its reference. -/
theorem Derivation.reference?_of_mem_zip {t : Term} (d : Derivation g deferral t) {name : String}
    (above : List (Node ρ)) {x : Reference ρ} {s : Spot ρ}
    (h : (x, s) ∈ (d.references (Node.namesOf above ++ [name])).zip
      ((Node.tree name (Node.coalesce d.forest)).places above)) :
    s.reference? = some x ∧ deferral x.name = some x.payload := by
  refine ⟨?_, d.deferral_of_mem (List.of_mem_zip h).1⟩
  have hsame := d.places_document name above
  generalize (d.references (Node.namesOf above ++ [name])) = xs at h hsame
  generalize ((Node.tree name (Node.coalesce d.forest)).places above) = spots at h hsame
  induction xs generalizing spots with
  | nil => cases h
  | cons y xs ih =>
    cases spots with
    | nil => cases h
    | cons z spots =>
      obtain ⟨hhead, htail⟩ := List.cons.inj hsame
      rcases List.mem_cons.1 h with hmem | hmem
      · cases hmem
        exact hhead
      · exact ih spots hmem htail

end References

/-- A document with the production that it was made of and the context that was made for it. -/
structure Edition (κ : Type) where
  start : String
  context : κ
  document : Node κ

open Classical in
/-- Does something else at invocations that are not expected. -/
noncomputable def Replacement.guarded (r : Replacement κ ω) (expected : Invocation κ ω → Prop)
    (other : Invocation κ ω → Act ω Unit) : Replacement κ ω :=
  ⟨r.production, fun i => if expected i then r.run i else other i⟩

theorem Replacement.guarded_run {r : Replacement κ ω} {expected : Invocation κ ω → Prop}
    {other : Invocation κ ω → Act ω Unit} {i : Invocation κ ω} (h : expected i) :
    (r.guarded expected other).run i = r.run i := if_pos h

namespace Generator

/-- Makes a document and keeps what it was made from. -/
def edition (g : Generator κ ω) (start : String) : Act ω (Edition κ) := do
  Act.modify (g.begun start)
  let definition ← Act.ofExcept (g.grammar.definition start)
  let context ← g.context
  let c ← (g.builder context).build g.budget (.root start) definition
  Act.modify (g.ended c.document)
  pure ⟨start, context, c.document⟩

theorem document_eq_map_edition (g : Generator κ ω) (start : String) :
    g.document start = Edition.document <$> g.edition start := by
  simp only [edition, map_bind, map_pure]
  rfl

/-- The references whose replacements run when an edition is written, each with its deferred node:
those that the derivation of the document leaves, and those that the derivation of an expansion
leaves, which goes on where the reference that it expands is. -/
inductive Runs (g : Generator κ ω) (e : Edition κ) : Reference κ → Spot κ → Prop
  | document {definition : Term} (defined : g.grammar.definition e.start = .ok definition)
      (d : Derivation g.grammar (g.builder e.context).deferral definition)
      (made : e.document = .tree e.start (Node.coalesce d.forest)) {x : Reference κ} {s : Spot κ}
      (found : (x, s) ∈ (d.references [e.start]).zip (e.document.places [])) : Runs g e x s
  | expansion {x : Reference κ} {s : Spot κ} (outer : Runs g e x s) {definition : Term}
      (defined : g.grammar.definition x.name = .ok definition)
      (d : Derivation g.grammar (g.builder e.context).deferral definition) {y : Reference κ}
      {t : Spot κ} (found : (y, t) ∈ (d.references x.path).zip
        ((Node.tree x.name (Node.coalesce d.forest)).places s.above)) : Runs g e y t

/-- An invocation for a reference: it has the context of the edition, the name of the reference, and
the productions that the reference is nested in around its node. -/
structure Fits (g : Generator κ ω) (e : Edition κ) (x : Reference κ) (i : Invocation κ ω) : Prop where
  runs : g.Runs e x i.spot
  context : i.context = e.context
  production : i.production = x.name
  names : i.spot.names = x.path

/-- The generator with replacements that do something else where an invocation fits no reference. -/
noncomputable def guarded (g : Generator κ ω) (e : Edition κ)
    (other : Invocation κ ω → Act ω Unit) : Generator κ ω :=
  { g with
    replacements := g.replacements.map fun r => r.guarded (fun i => ∃ x, g.Fits e x i) other }

variable {g : Generator κ ω} {e : Edition κ} {other : Invocation κ ω → Act ω Unit}

theorem replacement?_guarded (name : String) : (g.guarded e other).replacement? name =
    (g.replacement? name).map fun r => r.guarded (fun i => ∃ x, g.Fits e x i) other := by
  unfold replacement? guarded
  rw [← List.map_reverse, List.find?_map]
  rfl

theorem builder_guarded (context : κ) :
    (g.guarded e other).builder context = g.builder context := by
  have hdeferral : ((g.guarded e other).builder context).deferral =
      (g.builder context).deferral := by
    funext name
    simp only [builder, replacement?_guarded, Option.map_map]
    rfl
  exact congrArg (fun deferral => Builder.mk g.grammar g.policy deferral g.log) hdeferral

theorem production_of_replacement? {name : String} {r : Replacement κ ω}
    (h : g.replacement? name = some r) : r.production = name := by
  have hfound := List.find?_some h
  exact of_decide_eq_true hfound

theorem Runs.reference {x : Reference κ} {s : Spot κ} (h : g.Runs e x s) :
    s.reference? = some x ∧ x.payload = e.context := by
  have payload : ∀ {y : Reference κ}, (g.builder e.context).deferral y.name = some y.payload →
      y.payload = e.context := by
    intro y hy
    obtain ⟨r, -, hr⟩ := Option.map_eq_some_iff.1 hy
    exact hr.symm
  induction h with
  | document defined d made found =>
    rw [made] at found
    obtain ⟨href, hgiven⟩ := d.reference?_of_mem_zip [] found
    exact ⟨href, payload hgiven⟩
  | @expansion x s outer definition defined d y t found ih =>
    obtain ⟨-, henclosing⟩ := Spot.of_reference? ih.1
    rw [Reference.path, henclosing] at found
    obtain ⟨href, hgiven⟩ := d.reference?_of_mem_zip _ found
    exact ⟨href, payload hgiven⟩

/-- Every deferred node of the tree of a derivation stands for one of its references. -/
theorem exists_mem_zip {deferral : String → Option κ} {t : Term}
    (d : Derivation g.grammar deferral t) (name : String) {above : List (Node κ)} {s : Spot κ}
    (h : s ∈ (Node.tree name (Node.coalesce d.forest)).places above) :
    ∃ x, (x, s) ∈ (d.references (Node.namesOf above ++ [name])).zip
      ((Node.tree name (Node.coalesce d.forest)).places above) := by
  have hlength := congrArg List.length (d.places_document name above)
  rw [List.length_map, List.length_map] at hlength
  obtain ⟨k, hk, rfl⟩ := List.getElem_of_mem h
  have hk' : k < (d.references (Node.namesOf above ++ [name])).length := hlength ▸ hk
  refine ⟨(d.references (Node.namesOf above ++ [name]))[k], ?_⟩
  rw [← List.getElem_zip (h := by rw [List.length_zip]; omega)]
  exact List.getElem_mem _

/-- The deferred nodes of an expansion are those of references whose replacements run. -/
theorem expand_guarded {sink : Sink ω} {n : Nat} {x : Reference κ} {s : Spot κ}
    (runs : g.Runs e x s)
    (nested : ∀ y t, g.Runs e y t → (g.guarded e other).invoke sink n t = g.invoke sink n t) :
    s.expand ((g.guarded e other).invoke sink n) sink x.name
        ((g.builder e.context).define g.budget x.name) =
      s.expand (g.invoke sink n) sink x.name ((g.builder e.context).define g.budget x.name) := by
  obtain ⟨-, henclosing⟩ := Spot.of_reference? runs.reference.1
  funext w
  rw [Spot.expand, Spot.expand, Act.bind_run, Act.bind_run]
  rcases hfill : (g.builder e.context).define g.budget x.name (.detached x.name s.above) w with
    ⟨c | why | _, v⟩
  · obtain ⟨definition, defined, hbuild⟩ := Builder.define_eq_value_iff.1 hfill
    obtain ⟨d, rfl, -⟩ := Builder.exists_derivation_of_build hbuild
    simp only [Cursor.document_grow (c := Cursor.detached x.name s.above) rfl rfl,
      Spot.write_eq_traverse]
    refine congrFun (Node.traverse_congr _ fun t ht => ?_) v
    obtain ⟨y, hy⟩ := exists_mem_zip d x.name ht
    rw [← henclosing] at hy
    exact nested y t (.expansion runs defined d hy)
  · rfl
  · rfl

/-- What a replacement does at an invocation that fits no reference makes no difference to a
reference whose replacement runs, however deep expansions nest. -/
theorem invoke_guarded {sink : Sink ω} {n : Nat} {x : Reference κ} {s : Spot κ}
    (runs : g.Runs e x s) : (g.guarded e other).invoke sink n s = g.invoke sink n s := by
  induction n generalizing x s with
  | zero => rfl
  | succ n ih =>
    obtain ⟨href, hpayload⟩ := runs.reference
    obtain ⟨hnode, -⟩ := Spot.of_reference? href
    rw [hpayload] at hnode
    simp only [invoke, hnode, replacement?_guarded, builder_guarded]
    cases hr : g.replacement? x.name with
    | none => rfl
    | some r =>
      have hproduction := production_of_replacement? hr
      have hexpand : s.expand ((g.guarded e other).invoke sink n) sink x.name
            ((g.builder e.context).define g.budget x.name) =
          s.expand (g.invoke sink n) sink x.name ((g.builder e.context).define g.budget x.name) :=
        expand_guarded runs fun y t => ih
      rw [← hproduction] at hexpand
      let i : Invocation κ ω := ⟨s, r.production, e.context, sink,
        s.expand (g.invoke sink n) sink r.production
          ((g.builder e.context).define g.budget r.production)⟩
      have hfits : ∃ y, g.Fits e y i :=
        ⟨x, runs, rfl, hproduction, Spot.names_of_reference? href⟩
      calc (r.guarded (fun i => ∃ y, g.Fits e y i) other).run
            ⟨s, r.production, e.context, sink, s.expand ((g.guarded e other).invoke sink n) sink
              r.production ((g.builder e.context).define g.budget r.production)⟩
          = (r.guarded (fun i => ∃ y, g.Fits e y i) other).run i := by rw [hexpand]
        _ = r.run i := Replacement.guarded_run hfits

/-- Writing an edition that has been made invokes replacements at its references only. -/
theorem write_guarded {start : String} {w v : ω} (made : g.edition start w = (.value e, v))
    (sink : Sink ω) : (g.guarded e other).write sink e.document = g.write sink e.document := by
  obtain ⟨_, _, hbegun, h⟩ := Act.bind_eq_value_iff.1 made
  cases hbegun
  obtain ⟨definition, _, hdefinition, h⟩ := Act.bind_eq_value_iff.1 h
  obtain ⟨defined, rfl⟩ := Act.ofExcept_eq_value_iff.1 hdefinition
  obtain ⟨context, u, hcontext, h⟩ := Act.bind_eq_value_iff.1 h
  obtain ⟨c, u', hbuild, h⟩ := Act.bind_eq_value_iff.1 h
  obtain ⟨_, _, hended, h⟩ := Act.bind_eq_value_iff.1 h
  cases hended
  cases h
  obtain ⟨d, rfl, -⟩ := Builder.exists_derivation_of_build hbuild
  have hdocument := Cursor.document_grow (c := Cursor.root start) rfl rfl d.forest
  rw [hdocument, write, write, Spot.write_eq_traverse, Spot.write_eq_traverse]
  refine Node.traverse_congr _ fun s hs => ?_
  obtain ⟨x, hx⟩ := exists_mem_zip d start hs
  exact invoke_guarded (.document defined d rfl hx)

/-- The factory of contexts is used once for a document of a production that exists, not at all for
another one, and not when documents are written and replacements run: the rest is the same whatever
the factory is. -/
structure UsesFactoryOnce (g : Generator κ ω) : Prop where
  declared : ∀ start definition, g.grammar.definition start = .ok definition →
    ∃ (before : Act ω Unit) (after : κ → Act ω (Node κ)), ∀ factory,
      ({ g with context := factory } : Generator κ ω).document start =
        before >>= fun _ => factory >>= after
  unknown : ∀ start why, g.grammar.definition start = .error why → ∀ factory,
    ({ g with context := factory } : Generator κ ω).document start = g.document start
  invoked : ∀ factory sink n s,
    ({ g with context := factory } : Generator κ ω).invoke sink n s = g.invoke sink n s
  written : ∀ factory sink document,
    ({ g with context := factory } : Generator κ ω).write sink document = g.write sink document

theorem usesFactoryOnce (g : Generator κ ω) : g.UsesFactoryOnce := by
  have invoked : ∀ factory sink n s,
      ({ g with context := factory } : Generator κ ω).invoke sink n s = g.invoke sink n s := by
    intro factory sink n
    induction n with
    | zero => exact fun _ => rfl
    | succ n ih =>
      intro s
      have hinvoke := funext ih
      simp only [invoke, hinvoke]
      rfl
  refine ⟨fun start definition defined => ?_, fun start why h factory => ?_, invoked,
    fun factory sink document => ?_⟩
  · refine ⟨Act.modify (g.begun start), fun context => do
      let c ← (g.builder context).build g.budget (.root start) definition
      Act.modify (g.ended c.document)
      pure c.document, fun factory => ?_⟩
    unfold document
    rw [defined]
    rfl
  · unfold document
    rw [h]
    rfl
  · have hinvoke := funext (invoked factory sink g.budget)
    rw [write, write, hinvoke]

end Generator

/-- Something to do with a generator: to make a document, or to write one that has been made. -/
inductive Task (ω : Type) where
  | make (start : String)
  | write (number : Nat) (sink : Sink ω)

section Session

variable (make : String → Act ω (Edition κ)) (write : Edition κ → Sink ω → Act ω Unit)

/-- Does a task; editions are numbered in the order in which they are made. -/
def Task.perform (made : List (Edition κ)) : Task ω → Act ω (List (Edition κ))
  | .make start => do
    let e ← make start
    pure (made ++ [e])
  | .write number sink =>
    match made[number]? with
    | some e => do
      write e sink
      pure made
    | none => pure made

/-- Does one task after another, also when some fail. Gives the outcome of each. -/
def session : List (Task ω) → List (Edition κ) → ω → List (Outcome Unit) × ω
  | [], _, w => ([], w)
  | task :: tasks, made, w =>
    match task.perform make write made w with
    | (.value made, v) =>
      let later := session tasks made v
      (.value () :: later.1, later.2)
    | (.failed why, v) =>
      let later := session tasks made v
      (.failed why :: later.1, later.2)
    | (.unfinished, v) =>
      let later := session tasks made v
      (.unfinished :: later.1, later.2)

end Session

namespace Generator

/-- Whether an edition has been made, at any time. -/
def Made (g : Generator κ ω) (e : Edition κ) : Prop :=
  ∃ start w v, g.edition start w = (.value e, v)

theorem made_of_perform {g : Generator κ ω} {write : Edition κ → Sink ω → Act ω Unit}
    {made later : List (Edition κ)} (h : ∀ e ∈ made, g.Made e) {task : Task ω} {w v : ω}
    (hperform : task.perform g.edition write made w = (.value later, v)) : ∀ e ∈ later, g.Made e := by
  cases task with
  | make start =>
    obtain ⟨e, u, hedition, hpure⟩ := Act.bind_eq_value_iff.1 hperform
    cases hpure
    exact List.forall_mem_append.2 ⟨h, List.forall_mem_singleton.2 ⟨start, w, _, hedition⟩⟩
  | write number sink =>
    simp only [Task.perform] at hperform
    cases hget : made[number]? with
    | none =>
      rw [hget] at hperform
      cases hperform
      exact h
    | some e =>
      rw [hget] at hperform
      obtain ⟨_, u, -, hpure⟩ := Act.bind_eq_value_iff.1 hperform
      cases hpure
      exact h

/-- Writings that agree on editions that have been made make the same session. -/
theorem session_congr {g : Generator κ ω} {write write' : Edition κ → Sink ω → Act ω Unit}
    (agree : ∀ e, g.Made e → write e = write' e) (tasks : List (Task ω)) (made : List (Edition κ))
    (h : ∀ e ∈ made, g.Made e) (w : ω) :
    session g.edition write tasks made w = session g.edition write' tasks made w := by
  induction tasks generalizing made w with
  | nil => rfl
  | cons task tasks ih =>
    have hperform : task.perform g.edition write made w = task.perform g.edition write' made w := by
      cases task with
      | make start => rfl
      | write number sink =>
        simp only [Task.perform]
        cases hget : made[number]? with
        | none => rfl
        | some e => simp only [agree e (h e (List.mem_of_getElem? hget))]
    rw [session, session, ← hperform]
    rcases hresult : task.perform g.edition write made w with ⟨later | why | _, v⟩
    · simp only [ih later (made_of_perform h hresult) v]
    · simp only [ih made h v]
    · simp only [ih made h v]

/-- However documents are made and written in turn, replacements run for references only: the
context is the one that was made for the document, the production is the one that is referred to,
and the path leads from the production to start from through all productions that the reference is
nested in, also in expansions. What they would do anywhere else makes no difference. The factory is
used once for each document of a production that exists, and never to write or expand. -/
theorem session_guarded (g : Generator κ ω) (other : Edition κ → Invocation κ ω → Act ω Unit)
    (tasks : List (Task ω)) (w : ω) :
    session g.edition (fun e sink => (g.guarded e (other e)).write sink e.document) tasks [] w =
        session g.edition (fun e sink => g.write sink e.document) tasks [] w ∧
      (∀ start, g.document start = Edition.document <$> g.edition start) ∧ g.UsesFactoryOnce := by
  refine ⟨session_congr (fun e made => ?_) tasks [] (by simp) w, document_eq_map_edition g,
    usesFactoryOnce g⟩
  obtain ⟨start, u, v, hedition⟩ := made
  exact funext fun sink => write_guarded hedition sink

end Generator

end Sentential
