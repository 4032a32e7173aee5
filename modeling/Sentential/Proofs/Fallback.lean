import Sentential.Policy.Script
import Sentential.Proofs.Documents
import Sentential.Proofs.Expansion

/-!
# Falling back

Replacements that do nothing but fall back on the grammar are not noticed, as long as the path of a
place and the question fix every answer. Deferring a production splits a derivation: what stands
around it is decided when the document is built, and the production itself when it is written, on a
document of its own that hangs below the same trees.
-/
namespace Sentential

variable {ρ κ ω : Type} {answer : String → (q : Question) → Outcome q.Answer}
  {p : Part ω Transcript}

/-- The path of a place and the question fix the outcome, and a transcript is left alone. -/
structure Policy.Fixed (policy : Policy ρ ω)
    (answer : String → (q : Question) → Outcome q.Answer) (p : Part ω Transcript) : Prop where
  answers : ∀ c q w, (policy c q w).1 = answer c.path q
  spares : ∀ c q w, p.get (policy c q w).2 = p.get w

/-- Nothing is written to a transcript when messages are logged. -/
def Log.Spares (log : Log ω) (p : Part ω Transcript) : Prop :=
  ∀ level text w, p.get (log.record level text w) = p.get w

namespace Builder

variable {b : Builder ρ ω}

theorem Answers.agrees (fixed : b.policy.Fixed answer p) {x : Decision} (h : b.Answers x) :
    x.Agrees answer := by
  obtain ⟨c, w, v, hplace, hanswer⟩ := h
  have houtcome := fixed.answers c x.question w
  rw [hanswer, Cursor.path, hplace] at houtcome
  exact houtcome.symm

/-- A fixed policy makes all decisions that agree with it. -/
theorem makes_of_fixed (fixed : b.policy.Fixed answer p) (spares : b.log.Spares p)
    (before : Transcript) :
    b.Makes fun xs w => (∀ x ∈ xs, x.Agrees answer) ∧ p.get w = before where
  traced _ _ h := ⟨h.1, (spares _ _ _).trans h.2⟩
  asked := by
    rintro x later w c hplace ⟨hagrees, hbefore⟩
    obtain ⟨hx, hlater⟩ := List.forall_mem_cons.1 hagrees
    have houtcome : (b.policy c x.question w).1 = .value x.answer := by
      rw [fixed.answers, Cursor.path, hplace]
      exact hx
    exact ⟨_, Prod.ext houtcome rfl, hlater, (fixed.spares _ _ _).trans hbefore⟩

theorem build_of_agrees (fixed : b.policy.Fixed answer p) (spares : b.log.Spares p) {t : Term}
    (d : Derivation b.grammar b.deferral t) {c : Cursor ρ}
    (h : ∀ x ∈ d.decisions c.names, x.Agrees answer) (w : ω) :
    ∃ v k, p.get v = p.get w ∧ ∀ n, k ≤ n → b.build n c t w = (.value (c.grow d.forest), v) := by
  obtain ⟨v, k, hv, hbuild⟩ :=
    build_of_derivation (makes_of_fixed fixed spares (p.get w)) d c ⟨h, rfl⟩
  exact ⟨v, k, hv.2, hbuild⟩

theorem exists_agrees_of_build (fixed : b.policy.Fixed answer p) (spares : b.log.Spares p) {n : Nat}
    {t : Term} {c c' : Cursor ρ} {w v : ω} (h : b.build n c t w = (.value c', v)) :
    ∃ d : Derivation b.grammar b.deferral t, c' = c.grow d.forest ∧
      (∀ x ∈ d.decisions c.names, x.Agrees answer) ∧ p.get v = p.get w := by
  obtain ⟨d, hc, hd⟩ := exists_derivation_of_build h
  have hagrees : ∀ x ∈ d.decisions c.names, x.Agrees answer := fun x hx => (hd x hx).agrees fixed
  obtain ⟨u, k, hu, hbuild⟩ := build_of_agrees fixed spares d hagrees w
  -- both builds end in the same world with a budget that is enough for either
  have hboth := (build_add h k).symm.trans (hbuild (n + k) (Nat.le_add_left k n))
  cases hboth
  exact ⟨d, hc, hagrees, hu⟩

end Builder

/-- A replacement that only falls back on the grammar. -/
def Replacement.fallback (name : String) : Replacement κ ω := ⟨name, fun i => i.fallback⟩

namespace Generator

def fallingBack (g : Generator κ ω) (replaced : List String) (budget : Nat) : Generator κ ω :=
  { g with replacements := replaced.map Replacement.fallback, budget }

def deferring (g : Generator κ ω) (replaced : List String) (context : κ) : Builder κ ω where
  grammar := g.grammar
  policy := g.policy
  deferral name := if name ∈ replaced then some context else none
  log := g.log

variable {g : Generator κ ω} {replaced : List String}

theorem replacement?_fallingBack (budget : Nat) (name : String) :
    (g.fallingBack replaced budget).replacement? name =
      if name ∈ replaced then some (.fallback name) else none := by
  unfold replacement? fallingBack
  split
  · rename_i hmem
    cases hfind : (replaced.map Replacement.fallback).reverse.find? fun r => r.production = name with
    | none =>
      have hnone := List.find?_eq_none.1 hfind (.fallback name)
        (List.mem_reverse.2 (List.mem_map.2 ⟨name, hmem, rfl⟩))
      exact absurd rfl (of_decide_eq_false (Bool.eq_false_iff.2 hnone))
    | some r =>
      have hfound := List.find?_some hfind
      obtain ⟨n, -, rfl⟩ := List.mem_map.1 (List.mem_reverse.1 (List.mem_of_find?_eq_some hfind))
      have hname : n = name := of_decide_eq_true hfound
      rw [hname]
  · rename_i hmem
    refine List.find?_eq_none.2 fun r hr => ?_
    obtain ⟨n, hn, rfl⟩ := List.mem_map.1 (List.mem_reverse.1 hr)
    intro hname
    exact hmem (of_decide_eq_true hname ▸ hn)

theorem builder_fallingBack (budget : Nat) (context : κ) :
    (g.fallingBack replaced budget).builder context = g.deferring replaced context := by
  have hdeferral : ((g.fallingBack replaced budget).builder context).deferral =
      (g.deferring replaced context).deferral := by
    funext name
    simp only [builder, deferring, replacement?_fallingBack]
    split <;> rfl
  exact congrArg (fun deferral => Builder.mk g.grammar g.policy deferral g.log) hdeferral

theorem mem_of_deferral {context : κ} {name : String}
    (h : (g.deferring replaced context).deferral name ≠ none) : name ∈ replaced := by
  by_cases hmem : name ∈ replaced
  · exact hmem
  · exact absurd (if_neg hmem) h

theorem invoke_of_notMem {sink : Sink ω} {budget n : Nat} {name : String} {payload : κ}
    {above : List (Node κ)} (h : name ∉ replaced) :
    (g.fallingBack replaced budget).invoke sink (n + 1) ⟨.deferred name payload, above⟩ =
      pure () := by
  simp only [invoke, replacement?_fallingBack, if_neg h]

/-- A fallback fills an empty document below the same trees and writes it there. -/
theorem invoke_of_mem {sink : Sink ω} {budget n : Nat} {name : String} {payload : κ}
    {above : List (Node κ)} (h : name ∈ replaced) :
    (g.fallingBack replaced budget).invoke sink (n + 1) ⟨.deferred name payload, above⟩ =
      ((g.deferring replaced payload).define budget name (.detached name above) >>= fun c =>
        Spot.write ((g.fallingBack replaced budget).invoke sink n) sink ⟨c.document, above⟩) := by
  simp only [invoke, replacement?_fallingBack, if_pos h, builder_fallingBack]
  rfl

variable (fixed : g.policy.Fixed answer p) (spares : g.log.Spares p)

/-- What a deferred node reads as; only replaced productions are deferred. -/
def Stands (g : Generator κ ω) (replaced : List String)
    (answer : String → (q : Question) → Outcome q.Answer) (names : List String)
    (name x : String) : Prop :=
  name ∈ replaced → Expands κ g.grammar answer names name x

/-- Writing a deferred node succeeds with that text when the budget is large enough. -/
def Writes (g : Generator κ ω) (replaced : List String) (p : Part ω Transcript)
    (names : List String) (name x : String) : Prop :=
  ∀ above payload w, Node.namesOf above = names →
    ∃ v m, Transcript.textAt p v = Transcript.textAt p w ++ x ∧ ∀ i : Nat × Nat, m ≤ min i.1 i.2 →
      (g.fallingBack replaced i.1).invoke (.transcript p) i.2 ⟨.deferred name payload, above⟩ w =
        (.value (), v)

include fixed spares

/-- A document that has been built for a production and written is what the production stands
for. -/
theorem expands_of_write {invoke : Spot κ → Act ω Unit}
    (invoked : ∀ name payload above w v, invoke ⟨.deferred name payload, above⟩ w = (.value (), v) →
      ∃ x, g.Stands replaced answer (Node.namesOf above) name x ∧
        Transcript.textAt p v = Transcript.textAt p w ++ x)
    {name : String} {definition : Term} (defined : g.grammar.definition name = .ok definition)
    {context : κ} {budget : Nat} {above : List (Node κ)} {c : Cursor κ} {t u v w : ω}
    (hbuild : (g.deferring replaced context).build budget (.detached name above) definition t =
      (.value c, u))
    (hsame : p.get w = p.get u)
    (hwrite : Spot.write invoke (.transcript p) ⟨c.document, above⟩ w = (.value (), v)) :
    ∃ x, Expands κ g.grammar answer (Node.namesOf above) name x ∧
      Transcript.textAt p v = Transcript.textAt p t ++ x := by
  obtain ⟨d, rfl, hagrees, hkept⟩ := Builder.exists_agrees_of_build fixed spares hbuild
  rw [Cursor.document_grow rfl rfl, Spot.write_eq_traverse] at hwrite
  obtain ⟨x, hreads, htext⟩ := Node.reads_of_traverse invoked _ hwrite
  rw [Node.names_detached] at hagrees
  have hforest := (Node.readsAll_coalesce _).1 (Node.reads_tree.1 hreads)
  have hstands : Derivable g.grammar answer (g.deferring replaced context).deferral
      (g.Stands replaced answer) := by
    intro names name x hname hx
    apply hx
    exact mem_of_deferral hname
  obtain ⟨e, he, rfl⟩ := d.complete hstands hagrees hforest
  refine ⟨e.sentence, ⟨.reference name rfl defined e, he, rfl⟩, ?_⟩
  rw [htext, Transcript.textAt, hsame, hkept]
  rfl

/-- What an invocation has written stands for its production, however deep fallbacks nest. -/
theorem stands_of_invoke {budget n : Nat} {name : String} {payload : κ} {above : List (Node κ)}
    {w v : ω} (h : (g.fallingBack replaced budget).invoke (.transcript p) n
      ⟨.deferred name payload, above⟩ w = (.value (), v)) :
    ∃ x, g.Stands replaced answer (Node.namesOf above) name x ∧
      Transcript.textAt p v = Transcript.textAt p w ++ x := by
  induction n generalizing name payload above w v with
  | zero => cases h
  | succ n ih =>
    by_cases hmem : name ∈ replaced
    · rw [invoke_of_mem hmem] at h
      obtain ⟨c, u, hdefine, hwrite⟩ := Act.bind_eq_value_iff.1 h
      obtain ⟨definition, defined, hbuild⟩ := Builder.define_eq_value_iff.1 hdefine
      obtain ⟨x, hx, htext⟩ := expands_of_write fixed spares
        (fun name payload above w v => ih) defined hbuild rfl hwrite
      exact ⟨x, fun _ => hx, htext⟩
    · rw [invoke_of_notMem hmem] at h
      cases h
      exact ⟨"", fun hname => absurd hname hmem, String.append_empty.symm⟩

/-- A derivation that has been cut is built, and written where its deferred nodes are. -/
theorem write_of_cut (name : String) (above : List (Node κ)) {context : κ} {definition : Term}
    (e : Derivation g.grammar (g.deferring replaced context).deferral definition) {x : String}
    (agrees : ∀ y ∈ e.decisions (Node.namesOf above ++ [name]), y.Agrees answer)
    (reads : Node.ReadsAll (g.Writes replaced p) (Node.namesOf above ++ [name]) e.forest x) (t : ω) :
    ∃ c u k, p.get u = p.get t ∧
      (∀ n, k ≤ n → (g.deferring replaced context).build n (.detached name above) definition t =
        (.value c, u)) ∧
      ∀ w, p.get w = p.get u → ∃ v m, Transcript.textAt p v = Transcript.textAt p t ++ x ∧
        ∀ i : Nat × Nat, m ≤ min i.1 i.2 →
          Spot.write ((g.fallingBack replaced i.1).invoke (.transcript p) i.2) (.transcript p)
            ⟨c.document, above⟩ w = (.value (), v) := by
  rw [← Node.names_detached] at agrees
  obtain ⟨u, k, hu, hbuild⟩ :=
    Builder.build_of_agrees (b := g.deferring replaced context) fixed spares e agrees t
  refine ⟨_, u, k, hu, hbuild, fun w hw => ?_⟩
  have hreads : Node.Reads (g.Writes replaced p) (Node.namesOf above)
      (.tree name (Node.coalesce e.forest)) x :=
    Node.reads_tree.2 ((Node.readsAll_coalesce _).2 reads)
  obtain ⟨v, m, hv, hwrite⟩ := Node.traverse_of_reads
    (fun i : Nat × Nat => (g.fallingBack replaced i.1).invoke (.transcript p) i.2)
    (fun i => min i.1 i.2) (fun _ _ _ h above payload w hw => h above payload w hw) _ hreads w
  rw [Cursor.document_grow rfl rfl]
  refine ⟨v, m, ?_, fun i hi => ?_⟩
  · rw [hv, Transcript.textAt, hw, hu]
    rfl
  · rw [Spot.write_eq_traverse]
    exact hwrite i hi

theorem writes_of_cut {names : List String} {name x : String} {definition : Term}
    (defined : g.grammar.definition name = .ok definition) (hmem : name ∈ replaced)
    (h : ∀ context, ∃ e : Derivation g.grammar (g.deferring replaced context).deferral definition,
      (∀ y ∈ e.decisions (names ++ [name]), y.Agrees answer) ∧
        Node.ReadsAll (g.Writes replaced p) (names ++ [name]) e.forest x) :
    g.Writes replaced p names name x := by
  intro above payload w hnames
  subst hnames
  obtain ⟨e, hagrees, hreads⟩ := h payload
  obtain ⟨c, u, k, hu, hbuild, hwrite⟩ := write_of_cut fixed spares name above e hagrees hreads w
  obtain ⟨v, m, hv, hstage⟩ := hwrite u rfl
  refine ⟨v, max k (m + 1), hv, fun (budget, n) hi => ?_⟩
  obtain ⟨n, rfl⟩ : ∃ l, n = l + 1 := ⟨n - 1, by simp only at hi; omega⟩
  simp only at hi ⊢
  have hdefine : (g.deferring replaced payload).define budget name (.detached name above) w =
      (.value c, u) := by
    have hbudget : k ≤ budget := by omega
    exact Builder.define_eq_value_iff.2 ⟨definition, defined, hbuild budget hbudget⟩
  rw [invoke_of_mem hmem, Act.bind_value hdefine]
  exact hstage (budget, n) (by simp only; omega)

/-- Complete derivations are cut at the productions that are replaced, and those are written. -/
theorem exists_cut {t : Term} (d : Derivation g.grammar (undeferred (ρ := κ)) t)
    {names : List String} (agrees : ∀ y ∈ d.decisions names, y.Agrees answer) (context : κ) :
    ∃ e : Derivation g.grammar (g.deferring replaced context).deferral t,
      (∀ y ∈ e.decisions names, y.Agrees answer) ∧
        Node.ReadsAll (g.Writes replaced p) names e.forest d.sentence := by
  have hwrites : Closed g.grammar answer (fun context => (g.deferring replaced context).deferral)
      (g.Writes replaced p) := by
    intro names name x definition defined hname h
    obtain ⟨k, hk⟩ := hname
    exact writes_of_cut fixed spares defined (mem_of_deferral hk) h
  exact d.cut hwrites agrees context

/-- A sentence is made and written just when there is a context, and its text is what the production
to start from stands for. Which productions are replaced does not come into it. -/
theorem sentence_iff_expands (replaced : List String) (start : String) (w : ω) (text : String) :
    (∃ budget v, (g.fallingBack replaced budget).sentence start (.transcript p) w =
        (.value (), v) ∧ Transcript.textAt p v = text) ↔
      ∃ context u x, g.context (g.begun start w) = (.value context, u) ∧
        Expands κ g.grammar answer [] start x ∧ text = Transcript.textAt p u ++ x := by
  constructor
  · rintro ⟨budget, v, hsentence, rfl⟩
    obtain ⟨document, t, hdocument, hwrite⟩ := Act.bind_eq_value_iff.1 hsentence
    obtain ⟨_, _, hwrite, hflush⟩ := Act.bind_eq_value_iff.1 hwrite
    cases hflush
    obtain ⟨definition, context, u, c, u', defined, hcontext, hbuild, rfl, rfl⟩ :=
      document_eq_value_iff.1 hdocument
    rw [builder_fallingBack] at hbuild
    obtain ⟨x, hx, htext⟩ := expands_of_write fixed spares
      (fun name payload above w v => stands_of_invoke fixed spares) defined hbuild
      (spares _ _ _) hwrite
    exact ⟨context, u, x, hcontext, hx, htext⟩
  · rintro ⟨context, u, x, hcontext, ⟨d, hagrees, rfl⟩, rfl⟩
    cases d with
    | deferred _ payload given => cases given
    | @reference _ definition kept defined inner =>
      obtain ⟨e, he, hreads⟩ := exists_cut fixed spares inner hagrees context
      obtain ⟨c, u', k, -, hbuild, hwrite⟩ := write_of_cut fixed spares start [] e he hreads u
      let ended := g.ended c.document u'
      obtain ⟨v, m, hv, hstage⟩ := hwrite ended (spares _ _ _)
      refine ⟨max k m, v, ?_, hv⟩
      have hdocument : (g.fallingBack replaced (max k m)).document start w =
          (.value c.document, ended) := by
        refine document_eq_value_iff.2
          ⟨definition, context, u, c, u', defined, hcontext, ?_, rfl, rfl⟩
        rw [builder_fallingBack]
        exact hbuild _ (Nat.le_max_left k m)
      have hwritten := hstage (max k m, max k m) (by simp only; omega)
      exact (Act.bind_value hdocument).trans ((Act.bind_value hwritten).trans rfl)

/-- Replacements that only fall back on the grammar make no difference to what is generated: with
them there is a sentence when there is one without any, and it is the same. -/
theorem sentence_fallback_iff (replaced : List String) (start : String) (w : ω) (text : String) :
    (∃ budget v, Generator.sentence
        { g with replacements := replaced.map Replacement.fallback, budget } start (.transcript p) w =
          (.value (), v) ∧ Transcript.textAt p v = text) ↔
      ∃ budget v, Generator.sentence { g with replacements := [], budget } start (.transcript p) w =
        (.value (), v) ∧ Transcript.textAt p v = text := by
  have hreplaced := sentence_iff_expands fixed spares replaced start w text
  have hplain := sentence_iff_expands fixed spares [] start w text
  exact hreplaced.trans hplain.symm

end Generator

/-- What a script has to say at a place. -/
def Script.outcome (s : Script) (path : String) (q : Question) : Outcome q.Answer :=
  match s.settle q with
  | .ok a => .value a
  | .error gap => .failed (.unpredicted path gap.message)

theorem Policy.scripted_fixed (s : Script) (p : Part ω Transcript) :
    (Policy.scripted (ρ := ρ) s).Fixed s.outcome p where
  answers c q w := by
    unfold scripted Script.outcome
    cases s.settle q <;> rfl
  spares c q w := by
    unfold scripted
    cases s.settle q <;> rfl

/-- Two letters in angle brackets, by a script. -/
def Generator.bracketed : Generator Unit Transcript where
  grammar :=
    { language := "group"
      productions :=
        ((Catalogue.empty.insert "letter" (.characters (.anyExcept ['a']))).insert
          "pair" (.repeated (.reference "letter") 2 none)).insert
          "group" (.sequence [.literal "<", .reference "pair", .literal ">"]) }
  policy := .scripted ((Script.empty.emit 'q').repeats 2 2 none)
  replacements := []
  context := pure ()
  log := .silent
  budget := 0

/-- The production to start from and those that nest in it are all replaced. -/
theorem Generator.sentence_bracketed :
    ∃ budget v, Generator.sentence
        { bracketed with
          replacements := ["letter", "group", "pair"].map Replacement.fallback
          budget } "group" (.transcript .whole) .empty = (.value (), v) ∧
      Transcript.textAt .whole v = "<qq>" := by
  have fixed := Policy.scripted_fixed (ρ := Unit) ((Script.empty.emit 'q').repeats 2 2 none) .whole
  have hplain : ∃ budget v, Generator.sentence { bracketed with replacements := [], budget } "group"
      (.transcript .whole) .empty = (.value (), v) ∧ Transcript.textAt .whole v = "<qq>" := by
    have hdocument : Generator.document { bracketed with replacements := [], budget := 20 } "group"
        .empty = (.value (.tree "group" [.literal "<", .tree "pair" [.tree "letter" [.literal "q"],
          .tree "letter" [.literal "q"]], .literal ">"]), .empty) := by rfl
    refine ⟨20, ⟨[">", "q", "q", "<"]⟩, ?_, by rfl⟩
    rw [Generator.sentence, Act.bind_value hdocument, Generator.write, Spot.write_eq_traverse]
    rfl
  exact (sentence_fallback_iff fixed (fun _ _ _ => rfl) ["letter", "group", "pair"] "group"
    Transcript.empty "<qq>").2 hplain

end Sentential
