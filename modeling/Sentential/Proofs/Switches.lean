import Sentential.Proofs.Derivation
import Sentential.Proofs.Flawless
import Sentential.Proofs.Lockstep
import Sentential.Proofs.Scripts

/-!
# Switches

An optional term is a repetition from zero to one. Where some optional terms of a grammar are recast
as such repetitions, a script makes the same document or ends with the same fault, as long as its
count for these bounds is one of them and it picks no term that has been recast or could be. The
optional term takes a yes or no where the repetition takes the count that it stands for, so that the
two builders go in lockstep.
-/
namespace Sentential

variable {ρ ω Ω : Type}

/-- From zero to one, whatever count is expected. -/
def Bounds.Switch (b : Bounds) : Prop := b.least = 0 ∧ b.most = some 1

namespace Term

/-- Terms which are the same but for optional terms that have become repetitions from zero to one,
any of them and at any depth. -/
inductive Recast : Term → Term → Prop
  | refl (t : Term) : Recast t t
  | sequence {ts us : List Term} (each : List.Forall₂ Recast ts us) :
      Recast (.sequence ts) (.sequence us)
  | alternatives {options others : List Choice}
      (weights : options.map Weighted.weight = others.map Weighted.weight)
      (each : List.Forall₂ Recast (options.map Weighted.item) (others.map Weighted.item)) :
      Recast (.alternatives options) (.alternatives others)
  | optional {t u : Term} (each : Recast t u) (p : Float) : Recast (.optional t p) (.optional u p)
  | switch {t u : Term} (each : Recast t u) (p : Float) (expected : Option UInt32) :
      Recast (.optional t p) (.repetition u ⟨0, some 1, expected⟩)
  | repetition {t u : Term} (each : Recast t u) (bounds : Bounds) :
      Recast (.repetition t bounds) (.repetition u bounds)

/-- An optional term or a repetition from zero to one. -/
def Switches : Term → Prop
  | .optional _ _ => True
  | .repetition _ bounds => bounds.Switch
  | _ => False

/-- Nothing that has been recast or could be is part of the term. -/
def Plain (t : Term) : Prop := t.Throughout fun s => ¬ s.Switches

theorem forall₂_choices {parts : Term → Term → Prop} {options others : List Choice}
    (weights : options.map Weighted.weight = others.map Weighted.weight)
    (each : List.Forall₂ parts (options.map Weighted.item) (others.map Weighted.item)) :
    List.Forall₂ (fun c d : Choice => c.weight = d.weight ∧ parts c.item d.item) options others := by
  induction options generalizing others with
  | nil =>
    cases others with
    | nil => exact .nil
    | cons d others => cases each
  | cons c options ih =>
    cases others with
    | nil => cases each
    | cons d others =>
      obtain ⟨weight, weights⟩ := List.cons.inj weights
      cases each with
      | cons first each => exact .cons ⟨weight, first⟩ (ih weights each)

theorem SameKind.refl {names : String → String → Prop} {switches : Bounds → Prop}
    {parts : Term → Term → Prop} (name : ∀ n, names n n) (part : ∀ t, parts t t) (t : Term) :
    t.SameKind names switches parts t := by
  cases t with
  | literal text => exact .literal text
  | sequence terms => exact .sequence (List.forall₂_same.2 fun t _ => part t)
  | alternatives options =>
    exact .alternatives (List.forall₂_same.2 fun c _ => ⟨rfl, part c.item⟩)
  | reference production => exact .reference (name production)
  | optional t p => exact .optional (part t) p
  | repetition t bounds => exact .repetition (part t) bounds
  | characters set => exact .characters set
  | epsilon => exact .epsilon

theorem Recast.sameKind {t u : Term} (h : t.Recast u) :
    t.SameKind Eq Bounds.Switch Recast u := by
  cases h with
  | refl => exact .refl (fun _ => rfl) .refl t
  | sequence each => exact .sequence each
  | alternatives weights each => exact .alternatives (forall₂_choices weights each)
  | optional each p => exact .optional each p
  | switch each p expected => exact .counted each p ⟨rfl, rfl⟩
  | repetition each bounds => exact .repetition each bounds

mutual

/-- Whether a plain term is the same as another one does not depend on how that is recast. -/
theorem same_of_recast {t u : Term} (h : t.Recast u) (p : Term) (plain : p.Plain) :
    t.same p = u.same p :=
  match p with
  | .literal _ => by cases h.sameKind <;> simp only [same]
  | .epsilon => by cases h.sameKind <;> simp only [same]
  | .sequence ps => by
    cases h.sameKind with
    | sequence each =>
      simp only [same]
      exact sameAll_of_recast each ps fun _ => plain.sequence
    | _ => simp only [same]
  | .alternatives ps => by
    cases h.sameKind with
    | alternatives each =>
      simp only [same]
      exact sameChoices_of_recast each ps fun _ => plain.alternatives
    | _ => simp only [same]
  | .optional _ _ => absurd trivial plain.self
  | .repetition p bounds => by
    cases h.sameKind with
    | repetition each _ =>
      simp only [same]
      rw [same_of_recast each p plain.repetition]
    -- The one is optional and the other has bounds that no plain repetition has: neither is `p`.
    | @counted _ _ _ _ least switch =>
      have differ : least ≠ bounds := fun he => plain.self (he ▸ switch)
      simp only [same, beq_false_of_ne differ, Bool.and_false]
    | _ => simp only [same]
  | .reference _ => by
    cases h.sameKind with
    | reference name => rw [name]
    | _ => simp only [same]
  | .characters _ => by cases h.sameKind <;> simp only [same]

theorem sameAll_of_recast {ts us : List Term} (h : List.Forall₂ Recast ts us) (ps : List Term)
    (plain : ∀ p ∈ ps, p.Plain) : sameAll ts ps = sameAll us ps :=
  match ps with
  | [] => by cases h <;> simp only [sameAll]
  | p :: ps => by
    obtain ⟨hp, hps⟩ := List.forall_mem_cons.1 plain
    cases h with
    | nil => rfl
    | cons first rest =>
      simp only [sameAll]
      rw [same_of_recast first p hp, sameAll_of_recast rest ps hps]

theorem sameChoices_of_recast {options others : List Choice}
    (h : List.Forall₂ (fun c d : Choice => c.weight = d.weight ∧ c.item.Recast d.item) options others)
    (ps : List Choice) (plain : ∀ c ∈ ps, c.item.Plain) :
    sameChoices options ps = sameChoices others ps :=
  match ps with
  | [] => by cases h <;> simp only [sameChoices]
  | ⟨p, weight⟩ :: ps => by
    obtain ⟨hp, hps⟩ := List.forall_mem_cons.1 plain
    cases h with
    | nil => rfl
    | @cons c d _ _ first rest =>
      obtain ⟨c, v⟩ := c
      obtain ⟨d, w⟩ := d
      obtain ⟨hweight, first⟩ := first
      obtain rfl : v = w := hweight
      simp only [sameChoices]
      rw [same_of_recast first p hp, sameChoices_of_recast rest ps hps]

end

end Term

/-- Grammars with the same names, one of which has been recast. -/
structure Grammar.Recast (g h : Grammar) : Prop where
  language : g.language = h.language
  productions : List.Forall₂ (fun d e => d.1 = e.1 ∧ d.2.Recast e.2) g.productions.entries
    h.productions.entries

/-- What goes on where a grammar has been recast: the same, but with other terms. -/
def Likeness.recast (ρ ω Ω : Type) : Likeness ρ ω Ω where
  names := Eq
  switches := Bounds.Switch
  terms := Term.Recast
  cursors := Eq
  faults := Eq
  worlds _ _ := True
  sameKind := Term.Recast.sameKind
  write h text := by rw [h]
  enter h _ _ names := by rw [h, names]
  leave h := by rw [h]
  endOfInput := rfl
  meaningless _ := rfl

theorem Grammar.Recast.definition {g h : Grammar} (recast : g.Recast h) (name : String) :
    (Likeness.recast ρ ω Ω).Definitions (g.definition name) (h.definition name) := by
  have unknown : g.unknown name = h.unknown name := by
    rw [Grammar.unknown, Grammar.unknown, recast.language]
  unfold Grammar.definition Grammar.production? Catalogue.find?
  have productions := recast.productions
  generalize g.productions.entries = ds at productions
  generalize h.productions.entries = es at productions
  induction productions with
  | nil => exact .error unknown
  | @cons d e _ _ first _ ih =>
    obtain ⟨m, t⟩ := d
    obtain ⟨n, u⟩ := e
    obtain ⟨hname, hterm⟩ := first
    obtain rfl : m = n := hname
    rw [List.lookup_cons, List.lookup_cons]
    cases name == m with
    | true => exact .ok hterm
    | false => exact ih

namespace Script

/-- A script that does not tell optional terms from repetitions from zero to one. -/
structure Indifferent (s : Script) : Prop where
  count : ∀ n, s.count 0 (some 1) = .ok n → n ≤ 1
  picks : ∀ p ∈ s.picks, p.Plain

variable {s : Script}

theorem picked_of_recast (indifferent : s.Indifferent) {options others : List Choice}
    (each : List.Forall₂ (fun c d : Choice => c.weight = d.weight ∧ c.item.Recast d.item)
      options others) :
    (s.picked options).map Fin.val = (s.picked others).map Fin.val := by
  induction each with
  | nil => rfl
  | @cons c d _ _ first _ ih =>
    have contains : s.picks.contains c.item = s.picks.contains d.item := by
      refine contains_congr (exists_congr fun p => and_congr_right fun hp => ?_)
      exact Bool.eq_iff_iff.1 (Term.same_of_recast first.2 p (indifferent.picks p hp))
    rw [map_val_picked, map_val_picked, contains, ih]

theorem map_count (t : Term) (bounds : Bounds) :
    s.settle (.count t bounds) = (s.count bounds.least bounds.most).map id :=
  (congrFun Except.map_id _).symm

/-- Two questions that are settled alike, or with the same gap. -/
inductive Settled (s : Script) {q r : Question} (same : q.Answer → r.Answer → Prop) : Prop
  | ok {a : q.Answer} {b : r.Answer} (ha : s.settle q = .ok a) (hb : s.settle r = .ok b)
      (alike : same a b) : Settled s same
  | error {gap : Gap} (ha : s.settle q = .error gap) (hb : s.settle r = .error gap) : Settled s same

/-- Questions that the script settles by one of its counts. -/
theorem Settled.of_count {q r : Question} {same : q.Answer → r.Answer → Prop} {least : UInt32}
    {most : Option UInt32} {f : Nat → q.Answer} {f' : Nat → r.Answer}
    (hq : s.settle q = (s.count least most).map f) (hr : s.settle r = (s.count least most).map f')
    (alike : ∀ n, s.count least most = .ok n → same (f n) (f' n)) : s.Settled same := by
  cases h : s.count least most with
  | ok n =>
    rw [h] at hq hr
    exact .ok hq hr (alike n h)
  | error gap =>
    rw [h] at hq hr
    exact .error hq hr

/-- An indifferent script settles questions alike that come from a grammar that has been recast. -/
theorem settled_of_recast (indifferent : s.Indifferent) {q r : Question}
    {same : q.Answer → r.Answer → Prop} (h : (Likeness.recast ρ ω Ω).Questions q r same) :
    s.Settled same := by
  cases h with
  | @choice options others each =>
    have vals := picked_of_recast indifferent each
    have length : (s.picked options).length = (s.picked others).length := by
      simpa using congrArg List.length vals
    match hp : s.picked options, hq : s.picked others with
    | [], [] =>
      have none : s.settle (.choice options) = .error .noAlternative := by simp only [settle, hp]
      exact .error none (by simp only [settle, hq])
    | [i], [j] =>
      rw [hp, hq] at vals
      exact .ok (by simp only [settle, hp]) (by simp only [settle, hq]) (List.cons.inj vals).1
    | _ :: _ :: _, _ :: _ :: _ =>
      have several : s.settle (.choice options) = .error .severalAlternatives := by
        simp only [settle, hp]
      exact .error several (by simp only [settle, hq])
    | [], _ :: _ | _ :: _, [] | [_], _ :: _ :: _ | _ :: _ :: _, [_] => simp [hp, hq] at length
  | count each bounds => exact .of_count (map_count _ bounds) (map_count _ bounds) fun _ _ => rfl
  | inclusion each p => exact .of_count rfl rfl fun _ _ => rfl
  | @counted _ u _ p bounds switch =>
    have repetition := map_count (s := s) u bounds
    rw [switch.1, switch.2] at repetition
    refine .of_count rfl repetition fun n hn => ?_
    have le : n ≤ 1 := indifferent.count n hn
    obtain rfl | rfl : n = 0 ∨ n = 1 := by omega
    · rfl
    · rfl
  | character set =>
    cases h : s.settle (.character set) with
    | ok c => exact .ok h h rfl
    | error gap => exact .error h h

theorem scripted_of_recast (indifferent : s.Indifferent) {q r : Question}
    {same : q.Answer → r.Answer → Prop} (h : (Likeness.recast ρ ω Ω).Questions q r same)
    (c : Cursor ρ) (w : ω) (v : Ω) :
    (Likeness.recast ρ ω Ω).Ends same (Policy.scripted s c q w) (Policy.scripted s c r v) := by
  unfold Policy.scripted
  cases settled_of_recast indifferent h with
  | ok ha hb alike =>
    rw [ha, hb]
    exact .value alike trivial
  | error ha hb =>
    rw [ha, hb]
    exact .failed rfl trivial

end Script

namespace Builder

/-- A builder that goes by a script and defers nothing. -/
def rehearsing (g : Grammar) (s : Script) (log : Log ω) : Builder ρ ω :=
  ⟨g, .scripted s, undeferred, log⟩

/-- Whatever optional terms of a grammar are recast as repetitions from zero to one, building from a
production by an indifferent script ends alike, within any budget: with the same document, with the
same fault, or not at all. -/
theorem define_recast {g h : Grammar} (recast : g.Recast h) {s : Script}
    (indifferent : s.Indifferent) (start : String) (log : Log ω) (log' : Log Ω) (budget : Nat)
    (c : Cursor ρ) (w : ω) (v : Ω) :
    ((rehearsing g s log).define budget start c w).1 =
      ((rehearsing h s log').define budget start c v).1 := by
  have builders : (Likeness.recast ρ ω Ω).Builders (rehearsing g s log) (rehearsing h s log') :=
    { kept := rfl
      kept' := rfl
      definition := fun names => names ▸ recast.definition _
      policy := fun questions _ _ cursors w v _ =>
        cursors ▸ Script.scripted_of_recast indifferent questions _ w v
      traced := fun _ _ _ _ _ => trivial }
  exact (builders.define budget (p := start) (q := start) rfl (x := c) (y := c) rfl trivial).outcome_eq
    id

end Builder

/-- A sigh that perhaps goes on and is perhaps meant for somebody, with a stop that is optional. -/
def Grammar.sigh (perhaps : Term → Term) : Grammar where
  language := "sigh"
  productions := (Catalogue.empty.insert "sigh" (.sequence [.repeated (.literal "o") 1 none,
    perhaps (.sequence [.literal "h", perhaps (.literal ", ")]), .reference "somebody",
    .optional (.literal "!") 0.5])).insert "somebody" (perhaps (.literal "dear"))

theorem Grammar.sigh_recast :
    (sigh fun t => .optional t 0.5).Recast (sigh fun t => .repeated t 0 (some 1)) := by
  have nested : (Term.optional (.literal ", ") 0.5).Recast (.repeated (.literal ", ") 0 (some 1)) :=
    .switch (.refl _) 0.5 none
  have further : (Term.optional (.sequence [.literal "h", .optional (.literal ", ") 0.5]) 0.5).Recast
      (.repeated (.sequence [.literal "h", .repeated (.literal ", ") 0 (some 1)]) 0 (some 1)) :=
    .switch (.sequence (.cons (.refl _) (.cons nested .nil))) 0.5 none
  have somebody : (Term.optional (.literal "dear") 0.5).Recast
      (.repeated (.literal "dear") 0 (some 1)) := .switch (.refl _) 0.5 none
  exact ⟨rfl, .cons ⟨rfl, .sequence (.cons (.refl _) (.cons further (.cons (.refl _)
    (.cons (.refl _) .nil))))⟩ (.cons ⟨rfl, somebody⟩ .nil)⟩

def Script.sighing : Script :=
  ((Script.empty.pick (.reference "somebody")).includes true).repeats 2 1 none

theorem Script.sighing_indifferent : sighing.Indifferent where
  count n h := by
    cases h
    decide
  picks := List.forall_mem_singleton.2 (List.forall_mem_singleton.2 id)

/-- Three optional terms are recast, one of them in another one, and a fourth is left. -/
theorem Builder.define_sigh :
    (Grammar.sigh fun t => .optional t 0.5).Recast (.sigh fun t => .repeated t 0 (some 1)) ∧
    Script.sighing.Indifferent ∧
    ∃ c : Cursor Unit,
      c.document =
        .tree "sigh" [.literal "ooh, ", .tree "somebody" [.literal "dear"], .literal "!"] ∧
      ((rehearsing (.sigh fun t => .optional t 0.5) .sighing (.silent (ω := Unit))).define 20
        "sigh" (.root "sigh") ()).1 = .value c ∧
      ((rehearsing (.sigh fun t => .repeated t 0 (some 1)) .sighing (.silent (ω := Unit))).define 20
        "sigh" (.root "sigh") ()).1 = .value c := by
  have built : ∃ c : Cursor Unit,
      ((rehearsing (.sigh fun t => .optional t 0.5) .sighing (.silent (ω := Unit))).define 20
        "sigh" (.root "sigh") ()).1 = .value c ∧
      c.document =
        .tree "sigh" [.literal "ooh, ", .tree "somebody" [.literal "dear"], .literal "!"] :=
    ⟨_, by rfl, by rfl⟩
  obtain ⟨c, built, hc⟩ := built
  refine ⟨Grammar.sigh_recast, Script.sighing_indifferent, c, hc, built, ?_⟩
  rw [← define_recast Grammar.sigh_recast Script.sighing_indifferent "sigh" .silent .silent 20
    (.root "sigh") () ()]
  exact built

end Sentential
