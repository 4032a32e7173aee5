import Sentential.Grammar.Loaded

/-!
# Sound grammars

What inspecting a grammar guarantees about every term of its definitions, however deep: references
are to productions that exist, bounds and probabilities make sense.
-/
namespace Sentential

namespace Term

mutual

/-- A term and the terms nested in it, from the outside in and from left to right, in front of
those that follow. References are not followed. -/
def parts : Term → List Term → List Term
  | sequence terms, rest => sequence terms :: partsAll terms rest
  | alternatives options, rest => alternatives options :: partsChoices options rest
  | optional t p, rest => optional t p :: parts t rest
  | repetition t b, rest => repetition t b :: parts t rest
  | literal text, rest => literal text :: rest
  | reference production, rest => reference production :: rest
  | characters set, rest => characters set :: rest
  | epsilon, rest => epsilon :: rest

def partsAll : List Term → List Term → List Term
  | [], rest => rest
  | t :: ts, rest => parts t (partsAll ts rest)

def partsChoices : List Choice → List Term → List Term
  | [], rest => rest
  | ⟨t, _⟩ :: ts, rest => parts t (partsChoices ts rest)

end

mutual

theorem parts_eq_append (t : Term) (rest : List Term) : t.parts rest = t.parts [] ++ rest :=
  match t with
  | sequence terms => by
    rw [parts, parts, partsAll_eq_append terms rest]
    rfl
  | alternatives options => by
    rw [parts, parts, partsChoices_eq_append options rest]
    rfl
  | optional t p => by
    rw [parts, parts, parts_eq_append t rest]
    rfl
  | repetition t bounds => by
    rw [parts, parts, parts_eq_append t rest]
    rfl
  | literal text => rfl
  | reference name => rfl
  | characters set => rfl
  | epsilon => rfl

theorem partsAll_eq_append (ts : List Term) (rest : List Term) :
    partsAll ts rest = partsAll ts [] ++ rest :=
  match ts with
  | [] => rfl
  | t :: ts => by
    rw [partsAll, partsAll, parts_eq_append t (partsAll ts rest), parts_eq_append t (partsAll ts []),
      partsAll_eq_append ts rest, List.append_assoc]

theorem partsChoices_eq_append (options : List Choice) (rest : List Term) :
    partsChoices options rest = partsChoices options [] ++ rest :=
  match options with
  | [] => rfl
  | ⟨t, _⟩ :: options => by
    rw [partsChoices, partsChoices, parts_eq_append t (partsChoices options rest),
      parts_eq_append t (partsChoices options []), partsChoices_eq_append options rest,
      List.append_assoc]

end

theorem partsChoices_eq (options : List Choice) (rest : List Term) :
    partsChoices options rest = partsAll (options.map Weighted.item) rest := by
  induction options with
  | nil => rfl
  | cons c options ih => rw [partsChoices, List.map_cons, partsAll, ih]

theorem parts_eq_cons (t : Term) (rest : List Term) :
    t.parts rest = t :: partsAll t.children rest := by
  cases t with
  | alternatives options => rw [parts, partsChoices_eq, children]
  | sequence | optional | repetition | literal | reference | characters | epsilon => rfl

theorem partsAll_append (ts us : List Term) (rest : List Term) :
    partsAll (ts ++ us) rest = partsAll ts (partsAll us rest) := by
  induction ts with
  | nil => rfl
  | cons t ts ih => rw [List.cons_append, partsAll, partsAll, ih]

/-- The walk visits the parts of the terms on its stack in their order. -/
theorem walk_eq (pending : List Term) : walk pending = partsAll pending [] := by
  induction pending using walk.induct with
  | case1 => rw [walk, partsAll]
  | case2 t pending ih => rw [walk, ih, partsAll, parts_eq_cons, partsAll_append]

theorem walk_singleton (t : Term) : walk [t] = t.parts [] := walk_eq [t]

theorem mem_partsAll {s : Term} {ts : List Term} :
    s ∈ partsAll ts [] ↔ ∃ t ∈ ts, s ∈ t.parts [] := by
  induction ts with
  | nil => simp [partsAll]
  | cons t ts ih =>
    rw [partsAll, parts_eq_append, List.mem_append, ih]
    simp only [List.mem_cons, exists_eq_or_imp]

theorem mem_partsChoices {s : Term} {options : List Choice} :
    s ∈ partsChoices options [] ↔ ∃ c ∈ options, s ∈ c.item.parts [] := by
  induction options with
  | nil => simp [partsChoices]
  | cons c options ih =>
    rw [partsChoices, parts_eq_append, List.mem_append, ih]
    simp only [List.mem_cons, exists_eq_or_imp]

/-- What is true of a term and of all terms nested in it. -/
def Throughout (P : Term → Prop) (t : Term) : Prop := ∀ s ∈ t.parts [], P s

namespace Throughout

variable {P : Term → Prop} {t : Term}

theorem self (h : t.Throughout P) : P t := by
  apply h
  cases t <;> exact List.mem_cons_self

theorem sequence {terms : List Term} (h : (Term.sequence terms).Throughout P) (ht : t ∈ terms) :
    t.Throughout P := fun s hs => h s (List.mem_cons_of_mem _ (mem_partsAll.2 ⟨t, ht, hs⟩))

theorem alternatives {options : List Choice} (h : (Term.alternatives options).Throughout P)
    {c : Choice} (hc : c ∈ options) : c.item.Throughout P := fun s hs =>
  h s (List.mem_cons_of_mem _ (mem_partsChoices.2 ⟨c, hc, hs⟩))

theorem optional {p : Float} (h : (Term.optional t p).Throughout P) : t.Throughout P :=
  fun s hs => h s (List.mem_cons_of_mem _ hs)

theorem repetition {bounds : Bounds} (h : (Term.repetition t bounds).Throughout P) :
    t.Throughout P := fun s hs => h s (List.mem_cons_of_mem _ hs)

end Throughout

end Term

namespace Grammar

variable {g : Grammar}

theorem terms_eq (g : Grammar) : g.terms = g.productions.entries.flatMap fun (name, term) =>
    (term.parts []).map fun t => (name, t) := by
  simp only [terms, Term.walk_singleton]

/-- No term in a term has a flaw, the term itself included. -/
def Flawless (g : Grammar) (t : Term) : Prop := ∀ s ∈ t.parts [], g.flaw? s = none

namespace Flawless

theorem sequence {terms : List Term} (h : g.Flawless (.sequence terms)) {t : Term}
    (ht : t ∈ terms) : g.Flawless t := Term.Throughout.sequence h ht

theorem alternatives {options : List Choice} (h : g.Flawless (.alternatives options)) {c : Choice}
    (hc : c ∈ options) : g.Flawless c.item := Term.Throughout.alternatives h hc

theorem optional {t : Term} {p : Float} (h : g.Flawless (.optional t p)) : g.Flawless t :=
  Term.Throughout.optional h

theorem repetition {t : Term} {bounds : Bounds} (h : g.Flawless (.repetition t bounds)) :
    g.Flawless t := Term.Throughout.repetition h

theorem bounds_valid {t : Term} {bounds : Bounds} (h : g.Flawless (.repetition t bounds)) :
    bounds.valid = true := by
  have hflaw := h (.repetition t bounds) List.mem_cons_self
  by_cases hb : bounds.valid = true
  · exact hb
  · simp [flaw?, hb] at hflaw

theorem hasProduction {name : String} (h : g.Flawless (.reference name)) :
    g.hasProduction name = true := by
  have hflaw := h (.reference name) List.mem_cons_self
  by_cases hname : g.hasProduction name = true
  · exact hname
  · simp [flaw?, hname] at hflaw

end Flawless

theorem unit_of_flaw? {t : Term} {p : Float} (h : g.flaw? (.optional t p) = none) :
    0 ≤ p ∧ p ≤ 1 := by
  by_cases hp : 0 ≤ p ∧ p ≤ 1
  · exact hp
  · simp [flaw?, hp] at h

/-- An inspection that ends well has found no flaw. -/
theorem flaw?_of_inspectTerms {terms : List (String × Term)}
    (h : (g.inspectTerms terms).result = .ok ()) : ∀ x ∈ terms, g.flaw? x.2 = none := by
  induction terms with
  | nil => simp
  | cons x rest ih =>
    obtain ⟨name, t⟩ := x
    rw [inspectTerms] at h
    cases hflaw : g.flaw? t with
    | some fault =>
      rw [hflaw] at h
      cases h
    | none =>
      simp only [hflaw] at h
      refine List.forall_mem_cons.2 ⟨hflaw, ih ?_⟩
      split at h <;> exact h

theorem mem_entries_of_find? {c : Catalogue} {name : String} {t : Term}
    (h : c.find? name = some t) : (name, t) ∈ c.entries := by
  obtain ⟨before, after, hentries, -⟩ := List.lookup_eq_some_iff.1 h
  rw [hentries]
  exact List.mem_append_right _ List.mem_cons_self

theorem production?_of_definition {name : String} {t : Term} (h : g.definition name = .ok t) :
    g.production? name = some t := by
  unfold definition at h
  split at h
  · rename_i hfound
    cases h
    exact hfound
  · cases h

theorem exists_definition {name : String} (h : g.hasProduction name = true) :
    ∃ t, g.definition name = .ok t := by
  obtain ⟨t, ht⟩ := Option.isSome_iff_exists.1 h
  exact ⟨t, by rw [definition, production?, ht]⟩

theorem Sound.flaw?_eq_none (sound : g.Sound) : ∀ x ∈ g.terms, g.flaw? x.2 = none := by
  have hterms : (g.inspectTerms g.terms).result = .ok () := by
    unfold Sound inspect at sound
    split at sound
    · exact sound
    · cases sound
  exact flaw?_of_inspectTerms hterms

theorem Sound.flawless (sound : g.Sound) {name : String} {t : Term}
    (h : g.production? name = some t) : g.Flawless t := by
  intro s hs
  refine sound.flaw?_eq_none (name, s) (List.mem_flatMap.2 ⟨(name, t), ?_, ?_⟩)
  · exact mem_entries_of_find? h
  · exact List.mem_map.2 ⟨s, by rwa [Term.walk_singleton], rfl⟩

/-- A grammar that an inspection gives back is sound. -/
theorem eq_of_inspected {f g : Grammar} (h : f.inspected.result = .ok g) : f = g ∧ g.Sound := by
  change f.inspect.result.map (fun _ => f) = .ok g at h
  cases hf : f.inspect.result with
  | error cause =>
    rw [hf] at h
    cases h
  | ok =>
    rw [hf] at h
    cases h
    exact ⟨rfl, hf⟩

/-- A loaded grammar has been read and found to be sound. -/
theorem read_of_load {input : Json.Bytes} {g : Grammar} (h : (load input).result = .ok g) :
    read input = .ok g ∧ g.Sound := by
  cases hread : read input with
  | error cause =>
    rw [load, hread] at h
    cases h
  | ok f =>
    rw [load, hread] at h
    obtain ⟨rfl, sound⟩ := eq_of_inspected h
    exact ⟨rfl, sound⟩

/-- Grammars are put together from definitions or loaded. -/
inductive Accepted (g : Grammar) : Prop
  | built {language : String} {definitions : List (String × Term)}
      (h : (build language definitions).result = .ok g) : g.Accepted
  | loaded {input : Json.Bytes} (h : (load input).result = .ok g) : g.Accepted

theorem Accepted.sound (h : g.Accepted) : g.Sound := by
  cases h with
  | @built language definitions h =>
    cases hproductions : Catalogue.ofList definitions .empty with
    | error name =>
      rw [build, hproductions] at h
      cases h
    | ok productions =>
      rw [build, hproductions] at h
      exact (eq_of_inspected h).2
  | loaded h => exact (read_of_load h).2

end Grammar

end Sentential
