import Sentential.Proofs.Catalogues
import Sentential.Proofs.Flawless
import Sentential.Proofs.Order

/-!
# The verdict on a list of definitions

A term inside a definition has a place: the name of the production and the positions that lead to
the term from the outside in. Places are ordered by the bytes of the names, then as lists of
positions, so that a term stands before the terms nested in it and these stand from left to right.
Building a grammar succeeds just when the definitions are well formed, and otherwise reports what is
wrong at the first place where something is. Both sides are said about the list of definitions
alone, without a walk through it.
-/
namespace Sentential

open Text

namespace Term

/-- The term at the end of a path into a term. -/
def at? (t : Term) : List Nat → Option Term
  | [] => some t
  | i :: path => t.children[i]?.bind fun s => s.at? path

theorem sizeOf_child {s t : Term} (h : s ∈ t.children) : sizeOf s < sizeOf t := by
  cases t with
  | sequence terms =>
    have hs : sizeOf s < sizeOf terms := List.sizeOf_lt_of_mem h
    simp only [sequence.sizeOf_spec]
    omega
  | alternatives options =>
    obtain ⟨⟨item, weight⟩, hc, rfl⟩ := List.mem_map.1 h
    have := List.sizeOf_lt_of_mem hc
    simp only [alternatives.sizeOf_spec, Weighted.mk.sizeOf_spec] at *
    omega
  | optional u p =>
    cases List.mem_singleton.1 h
    simp only [optional.sizeOf_spec]
    omega
  | repetition u bounds =>
    cases List.mem_singleton.1 h
    simp only [repetition.sizeOf_spec]
    omega
  | literal | reference | characters | epsilon => cases h

theorem partsAll_eq_flatMap (ts : List Term) :
    partsAll ts [] = ts.flatMap fun t => t.parts [] := by
  induction ts with
  | nil => rfl
  | cons t ts ih => rw [partsAll, parts_eq_append, ih, List.flatMap_cons]

/-- The parts of a term come in the order of their paths. -/
theorem parts_inOrder (t : Term) :
    InOrder (· < ·) (fun path s => t.at? path = some s) (t.parts []) := by
  have inside := InOrder.siblings t.children (fun s _ => parts_inOrder s) 0
  rw [parts_eq_cons, partsAll_eq_flatMap]
  refine (inside.cons (i := []) (x := t) ?_).congr fun path s => ?_
  · rintro path s ⟨i, u, inner, rfl, -⟩
    exact List.Lex.nil
  · cases path with
    | nil => simp [at?, eq_comm]
    | cons i path =>
      constructor
      · rintro (⟨h, -⟩ | ⟨j, u, inner, heq, hu, hs⟩)
        · cases h
        · cases heq
          rw [at?, Nat.zero_add, hu]
          exact hs
      · intro h
        obtain ⟨u, hu, hs⟩ := Option.bind_eq_some_iff.1 h
        exact .inr ⟨i, u, path, by rw [Nat.zero_add], hu, hs⟩
termination_by sizeOf t
decreasing_by exact sizeOf_child ‹_›

end Term

namespace Grammar

/-- A place in the definitions of a grammar. -/
structure Place where
  production : String
  path : List Nat

/-- Productions are gone through by the bytes of their names, definitions from the outside in and
from left to right: a path comes before its continuations and before paths that branch off to the
right. -/
def Place.Earlier (a b : Place) : Prop :=
  bytes a.production < bytes b.production ∨ a.production = b.production ∧ a.path < b.path

theorem Place.Earlier.asymm {a b : Place} (h : a.Earlier b) : ¬ b.Earlier a := by
  rintro (h' | ⟨hname, h'⟩)
  · rcases h with h | ⟨hname, -⟩
    · exact List.lt_asymm h h'
    · rw [hname] at h'
      exact List.lt_irrefl _ h'
  · rcases h with h | ⟨-, h⟩
    · rw [hname] at h
      exact List.lt_irrefl _ h
    · exact List.lt_asymm h h'

variable {language : String} {definitions others : List (String × Term)} {g h : Grammar}
  {s : Term} {why : Fault}

/-- A term stands at a place in the given definitions. -/
def Stands (definitions : List (String × Term)) (place : Place) (s : Term) : Prop :=
  ∃ t, (place.production, t) ∈ definitions ∧ t.at? place.path = some s

/-- Definitions that make a grammar. -/
structure WellFormed (language : String) (definitions : List (String × Term)) : Prop where
  distinct : (definitions.map Prod.fst).Nodup
  language_defined : language ∈ definitions.map Prod.fst
  references_defined : ∀ {place name}, Stands definitions place (.reference name) →
    name ∈ definitions.map Prod.fst
  bounds_ordered : ∀ {place t bounds}, Stands definitions place (.repetition t bounds) →
    bounds.least ≤ bounds.norm ∧
      ∀ most, bounds.most = some most → bounds.least ≤ most ∧ bounds.norm ≤ most
  probabilities_unit : ∀ {place t p}, Stands definitions place (.optional t p) → 0 ≤ p ∧ p ≤ 1

/-- A term that keeps definitions from being well formed, and what is wrong with it. -/
inductive Offends (language : String) (definitions : List (String × Term)) : Term → Fault → Prop
  | reference {name : String} (undefined : name ∉ definitions.map Prod.fst) :
      Offends language definitions (.reference name) (.unknownProduction language name)
  | repetition {t : Term} {bounds : Bounds}
      (unordered : ¬ (bounds.least ≤ bounds.norm ∧
        ∀ most, bounds.most = some most → bounds.least ≤ most ∧ bounds.norm ≤ most)) :
      Offends language definitions (.repetition t bounds)
        (.invalidRepetition bounds.least bounds.most bounds.norm)
  | optional {t : Term} {p : Float} (outside : ¬ (0 ≤ p ∧ p ≤ 1)) :
      Offends language definitions (.optional t p) (.invalidProbability p)

/-- The first thing that is wrong with definitions: a name that is defined again, then the missing
definition of the language, then a term that offends at the earliest place. -/
inductive Complaint (language : String) (definitions : List (String × Term)) : Fault → Prop
  | again {before after : List (String × Term)} {name : String} {t : Term}
      (split : definitions = before ++ (name, t) :: after)
      (distinct : (before.map Prod.fst).Nodup) (known : name ∈ before.map Prod.fst) :
      Complaint language definitions (.duplicateProduction name)
  | missing (distinct : (definitions.map Prod.fst).Nodup)
      (undefined : language ∉ definitions.map Prod.fst) :
      Complaint language definitions (.unknownProduction language language)
  | offending {place : Place} {s : Term} {why : Fault}
      (distinct : (definitions.map Prod.fst).Nodup)
      (defined : language ∈ definitions.map Prod.fst)
      (here : Stands definitions place s) (offends : Offends language definitions s why)
      (first : ∀ {earlier t fault}, Place.Earlier earlier place → Stands definitions earlier t →
        ¬ Offends language definitions t fault) :
      Complaint language definitions why

/-- The terms of ascending definitions come in the order of their places. -/
theorem entries_inOrder {entries : List (String × Term)}
    (ascending : entries.Pairwise fun a b => a.1 < b.1) :
    InOrder Place.Earlier (Stands entries) (entries.flatMap fun e => e.2.parts []) := by
  induction entries with
  | nil => exact .nil fun place s => by simp [Stands]
  | cons e rest ih =>
    obtain ⟨name, t⟩ := e
    obtain ⟨below, ascending⟩ := List.pairwise_cons.1 ascending
    have first := t.parts_inOrder.rename Place.Earlier (Place.mk name) fun i j hij =>
      .inr ⟨rfl, hij⟩
    refine (first.append (ih ascending) ?_).congr fun place s => ?_
    · rintro place s place' s' ⟨path, rfl, -⟩ ⟨u, hu, -⟩
      exact .inl (bytes_lt (below _ hu))
    · obtain ⟨production, path⟩ := place
      simp only [Stands, List.mem_cons, Place.mk.injEq, Prod.mk.injEq]
      constructor
      · rintro (⟨_, ⟨rfl, rfl⟩, hs⟩ | ⟨u, hu, hs⟩)
        · exact ⟨t, .inl ⟨rfl, rfl⟩, hs⟩
        · exact ⟨u, .inr hu, hs⟩
      · rintro ⟨u, ⟨rfl, rfl⟩ | hu, hs⟩
        · exact .inl ⟨path, ⟨rfl, rfl⟩, hs⟩
        · exact .inr ⟨u, hu, hs⟩

/-- An inspection of terms is a search for the first flaw. -/
theorem inspectTerms_result (g : Grammar) (terms : List (String × Term)) :
    (g.inspectTerms terms).result =
      match (terms.map Prod.snd).findSome? g.flaw? with
      | some why => .error why
      | none => .ok () := by
  induction terms with
  | nil => rfl
  | cons x rest ih =>
    obtain ⟨name, t⟩ := x
    rw [inspectTerms, List.map_cons, List.findSome?_cons]
    cases g.flaw? t with
    | some why => rfl
    | none =>
      rw [← ih]
      dsimp only
      split <;> rfl

theorem snd_terms (g : Grammar) :
    g.terms.map Prod.snd = g.productions.entries.flatMap fun e => e.2.parts [] := by
  rw [terms_eq, List.map_flatMap]
  congr 1
  funext e
  rw [List.map_map]
  exact List.map_id _

theorem valid_iff {bounds : Bounds} : bounds.valid = true ↔ bounds.least ≤ bounds.norm ∧
    ∀ most, bounds.most = some most → bounds.least ≤ most ∧ bounds.norm ≤ most := by
  simp [Bounds.valid, Option.all_eq_true]

theorem hasProduction_iff (entries : g.productions.entries.Perm definitions) {name : String} :
    g.hasProduction name = true ↔ name ∈ definitions.map Prod.fst :=
  Catalogue.contains_iff.trans (entries.map Prod.fst).mem_iff

theorem flaw?_eq_some_iff (entries : g.productions.entries.Perm definitions) :
    g.flaw? s = some why ↔ Offends g.language definitions s why := by
  constructor
  · intro hflaw
    unfold flaw? at hflaw
    split at hflaw
    · split at hflaw
      · cases hflaw
      · rename_i undefined
        cases hflaw
        exact .reference (mt (hasProduction_iff entries).2 undefined)
    · split at hflaw
      · cases hflaw
      · rename_i invalid
        cases hflaw
        exact .repetition (mt valid_iff.2 invalid)
    · split at hflaw
      · cases hflaw
      · rename_i outside
        cases hflaw
        exact .optional outside
    · cases hflaw
  · intro offends
    cases offends with
    | reference undefined => exact if_neg (mt (hasProduction_iff entries).1 undefined)
    | repetition unordered => exact if_neg (mt valid_iff.1 unordered)
    | optional outside => exact if_neg outside

theorem flaw?_eq_none_iff (entries : g.productions.entries.Perm definitions) :
    g.flaw? s = none ↔ ∀ why, ¬ Offends g.language definitions s why := by
  simp only [← flaw?_eq_some_iff entries, Option.eq_none_iff_forall_ne_some, ne_eq]

/-- The terms of a grammar come in the order of their places in its definitions. -/
theorem terms_inOrder (entries : g.productions.entries.Perm definitions) :
    InOrder Place.Earlier (Stands definitions) (g.terms.map Prod.snd) := by
  rw [snd_terms]
  exact (entries_inOrder g.productions.ascending).congr fun place s =>
    exists_congr fun t => and_congr_left fun _ => entries.mem_iff

theorem wellFormed_iff : WellFormed language definitions ↔
    (definitions.map Prod.fst).Nodup ∧ language ∈ definitions.map Prod.fst ∧
      ∀ place s, Stands definitions place s → ∀ why, ¬ Offends language definitions s why := by
  constructor
  · intro h
    refine ⟨h.distinct, h.language_defined, fun place s here why offends => ?_⟩
    cases offends with
    | reference undefined => exact undefined (h.references_defined here)
    | repetition unordered => exact unordered (h.bounds_ordered here)
    | optional outside => exact outside (h.probabilities_unit here)
  · rintro ⟨distinct, defined, sound⟩
    refine ⟨distinct, defined, fun here => ?_, fun here => ?_, fun here => ?_⟩
    · exact not_not.1 fun undefined => sound _ _ here _ (.reference undefined)
    · exact not_not.1 fun unordered => sound _ _ here _ (.repetition unordered)
    · exact not_not.1 fun outside => sound _ _ here _ (.optional outside)

section Inspection

variable (entries : g.productions.entries.Perm definitions)
include entries

theorem distinct_of_entries : (definitions.map Prod.fst).Nodup :=
  (entries.map Prod.fst).nodup_iff.1 g.productions.nodup

theorem inspect_result_eq_ok_iff :
    g.inspect.result = .ok () ↔ WellFormed g.language definitions := by
  rw [wellFormed_iff]
  by_cases defined : g.hasProduction g.language = true
  · have search := (terms_inOrder entries).findSome?_eq_none_iff (f := g.flaw?)
    simp only [flaw?_eq_none_iff entries] at search
    rw [inspect, if_pos defined, inspectTerms_result, ← search]
    have hdistinct := distinct_of_entries entries
    have hdefined := (hasProduction_iff entries).1 defined
    cases (g.terms.map Prod.snd).findSome? g.flaw? with
    | none => simp [hdistinct, hdefined]
    | some why => simp
  · rw [inspect, if_neg defined]
    constructor
    · rintro ⟨⟩
    · rintro ⟨-, hdefined, -⟩
      exact absurd ((hasProduction_iff entries).2 hdefined) defined

theorem inspect_result_eq_error_iff :
    g.inspect.result = .error why ↔ Complaint g.language definitions why := by
  have hdistinct := distinct_of_entries entries
  have once {before after : List (String × Term)} {name : String} {t : Term}
      (split : definitions = before ++ (name, t) :: after) : name ∉ before.map Prod.fst := by
    intro known
    rw [split, List.map_append, List.nodup_append] at hdistinct
    exact hdistinct.2.2 name known name List.mem_cons_self rfl
  by_cases defined : g.hasProduction g.language = true
  · have hdefined := (hasProduction_iff entries).1 defined
    have search := (terms_inOrder entries).findSome?_eq_some_iff Place.Earlier.asymm
      (f := g.flaw?) (y := why)
    simp only [flaw?_eq_some_iff entries, flaw?_eq_none_iff entries] at search
    have found : g.inspect.result = .error why ↔
        (g.terms.map Prod.snd).findSome? g.flaw? = some why := by
      rw [inspect, if_pos defined, inspectTerms_result]
      cases (g.terms.map Prod.snd).findSome? g.flaw? <;> simp
    rw [found, search]
    constructor
    · rintro ⟨place, s, here, offends, first⟩
      exact .offending hdistinct hdefined here offends fun before there => first _ _ before there _
    · intro complaint
      cases complaint with
      | again split _ known => exact absurd known (once split)
      | missing _ undefined => exact absurd hdefined undefined
      | offending _ _ here offends first =>
        exact ⟨_, _, here, offends, fun _ _ before there _ => first before there⟩
  · have undefined := mt (hasProduction_iff entries).2 defined
    rw [inspect, if_neg defined]
    constructor
    · rintro ⟨⟩
      exact .missing hdistinct undefined
    · intro complaint
      cases complaint with
      | again split _ known => exact absurd known (once split)
      | missing => rfl
      | offending _ hdefined => exact absurd hdefined undefined

end Inspection

/-- Definitions with distinct names are put together and then inspected. -/
theorem build_of_nodup (language : String)
    (distinct : (definitions.map Prod.fst).Nodup) :
    ∃ g : Grammar, g.language = language ∧ g.productions.entries.Perm definitions ∧
      build language definitions = g.inspected := by
  obtain ⟨productions, hproductions, hperm⟩ := Catalogue.ofList_of_nodup distinct
  refine ⟨⟨language, productions⟩, rfl, hperm, ?_⟩
  rw [build, hproductions]

/-- A name that is defined again is reported without an inspection. -/
theorem build_of_not_nodup (language : String)
    (repeated : ¬ (definitions.map Prod.fst).Nodup) :
    ∃ name, Catalogue.ofList definitions .empty = .error name ∧
      (build language definitions).result = .error (.duplicateProduction name) := by
  obtain ⟨name, hname⟩ := Catalogue.ofList_of_not_nodup repeated
  refine ⟨name, hname, ?_⟩
  rw [build, hname]

theorem build_result_eq_ok_iff : (∃ g, (build language definitions).result = .ok g) ↔
    WellFormed language definitions := by
  by_cases distinct : (definitions.map Prod.fst).Nodup
  · obtain ⟨g, rfl, entries, hbuild⟩ := build_of_nodup language distinct
    rw [hbuild, ← inspect_result_eq_ok_iff entries]
    change (∃ f, g.inspect.result.map (fun _ => g) = .ok f) ↔ _
    cases g.inspect.result <;> simp [Except.map]
  · obtain ⟨name, -, hbuild⟩ := build_of_not_nodup language distinct
    rw [hbuild]
    constructor
    · rintro ⟨g, ⟨⟩⟩
    · intro h
      exact absurd h.distinct distinct

theorem build_result_eq_error_iff : (build language definitions).result = .error why ↔
    Complaint language definitions why := by
  by_cases distinct : (definitions.map Prod.fst).Nodup
  · obtain ⟨g, rfl, entries, hbuild⟩ := build_of_nodup language distinct
    rw [hbuild, ← inspect_result_eq_error_iff entries]
    change g.inspect.result.map (fun _ => g) = .error why ↔ _
    cases g.inspect.result <;> simp [Except.map]
  · obtain ⟨name, hname, hbuild⟩ := build_of_not_nodup language distinct
    rw [hbuild]
    constructor
    · rintro ⟨⟩
      obtain ⟨before, t, after, split, before_distinct, known⟩ :=
        Catalogue.ofList_eq_error_iff.1 hname
      exact .again split before_distinct known
    · intro complaint
      cases complaint with
      | again split before_distinct known =>
        have hname' := (Catalogue.ofList_eq_error_iff (c := .empty)).2
          ⟨_, _, _, split, before_distinct, known⟩
        rw [hname] at hname'
        cases hname'
        rfl
      | missing h => exact absurd h distinct
      | offending h => exact absurd h distinct

theorem build_congr_of_perm (distinct : (definitions.map Prod.fst).Nodup)
    (order : definitions.Perm others) : build language others = build language definitions := by
  have distinct' := (order.map Prod.fst).nodup_iff.1 distinct
  obtain ⟨c, hc, entries⟩ := Catalogue.ofList_of_nodup distinct
  obtain ⟨d, hd, entries'⟩ := Catalogue.ofList_of_nodup distinct'
  have hcd : d = c := Catalogue.eq_of_perm (entries'.trans (order.symm.trans entries.symm))
  rw [build, build, hc, hd, hcd]

/-- A grammar is built just from well formed definitions. Otherwise the fault is the first complaint
about them: the first name defined again, else the missing language, else the first term that
offends. The order of definitions with distinct names does not matter. -/
theorem build_verdict (language : String) (definitions : List (String × Term)) :
    ((∃ g, (build language definitions).result = .ok g) ↔ WellFormed language definitions) ∧
      (∀ why, (build language definitions).result = .error why ↔
        Complaint language definitions why) ∧
      ∀ others, (definitions.map Prod.fst).Nodup → definitions.Perm others →
        build language others = build language definitions :=
  ⟨build_result_eq_ok_iff, fun _ => build_result_eq_error_iff, fun _ => build_congr_of_perm⟩

/-- Two definitions, the second of them without flaws: the first repeats a term at least three times
and at most twice, and the repeated term is not defined either. -/
def flawed : List (String × Term) :=
  [("song", .sequence [.reference "verse", .repetition (.reference "refrain") ⟨3, some 2, none⟩]),
    ("verse", .literal "la")]

/-- The outer of two nested flaws is reported, in whatever order the definitions come. -/
theorem flawed_verdict :
    Complaint "song" flawed (.invalidRepetition 3 (some 2) 3) ∧
      ¬ WellFormed "song" flawed ∧
      (build "song" flawed.reverse).result = .error (.invalidRepetition 3 (some 2) 3) := by
  obtain ⟨accepted, refused, order⟩ := build_verdict "song" flawed
  have hbuild : (build "song" flawed).result = .error (.invalidRepetition 3 (some 2) 3) := by
    simp only [build, inspected, inspect, terms_eq]
    rfl
  have distinct : (flawed.map Prod.fst).Nodup := by decide
  refine ⟨(refused _).1 hbuild, fun sound => ?_, ?_⟩
  · obtain ⟨g, hg⟩ := accepted.2 sound
    rw [hbuild] at hg
    cases hg
  · rw [order _ distinct flawed.reverse_perm.symm]
    exact hbuild

end Grammar

end Sentential
