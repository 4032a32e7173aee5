import Sentential.Generation.Generator
import Sentential.Proofs.Recursion
import Sentential.Proofs.Traversal

/-!
# Derivations

A derivation of a term settles everything that the term leaves open: which alternative is taken, how
often a term is repeated, which character of a set is meant. Only alternatives that can be chosen
are taken; the end of input and unknown sets have no derivation. References to deferred productions
are left as they are; where nothing is deferred, the derivation is complete. Whether counts and
characters keep within the grammar is said of its decisions.

Building succeeds just when the policy makes the decisions of some derivation, and the document has
been grown by its forest then.
-/
namespace Sentential

variable {ρ ω : Type}

/-- Defers no production. -/
abbrev undeferred : String → Option ρ := fun _ => none

mutual

inductive Derivation (g : Grammar) (deferral : String → Option ρ) : Term → Type
  | literal (text : String) : Derivation g deferral (.literal text)
  | epsilon : Derivation g deferral .epsilon
  | sequence {terms : List Term} (parts : Derivations g deferral terms) :
      Derivation g deferral (.sequence terms)
  | alternatives (options : List Choice) (i : Fin (eligible options).length)
      (taken : Derivation g deferral (eligible options)[i].item) :
      Derivation g deferral (.alternatives options)
  | optional (term : Term) (probability : Float) (yes : Bool)
      (parts : Derivations g deferral (List.replicate (if yes then 1 else 0) term)) :
      Derivation g deferral (.optional term probability)
  | repetition (term : Term) (bounds : Bounds) (count : Nat)
      (parts : Derivations g deferral (List.replicate count term)) :
      Derivation g deferral (.repetition term bounds)
  | reference (name : String) {definition : Term} (kept : deferral name = none)
      (defined : g.definition name = .ok definition) (inner : Derivation g deferral definition) :
      Derivation g deferral (.reference name)
  | deferred (name : String) (payload : ρ) (given : deferral name = some payload) :
      Derivation g deferral (.reference name)
  | only (set : CharacterSet) (char : Char) (means : set.meaning = .ok (.only char)) :
      Derivation g deferral (.characters set)
  | any (set : CharacterSet) (char : Char) (means : set.meaning = .ok .any) :
      Derivation g deferral (.characters set)

inductive Derivations (g : Grammar) (deferral : String → Option ρ) : List Term → Type
  | nil : Derivations g deferral []
  | cons {term : Term} {terms : List Term} (first : Derivation g deferral term)
      (rest : Derivations g deferral terms) : Derivations g deferral (term :: terms)

end

/-- A question with its answer, and the names of the trees around the place where it comes up,
outermost first. -/
structure Decision where
  place : List String
  question : Question
  answer : question.Answer

/-- Whether an answer keeps within what the grammar says: a count within its bounds and a character
that is not excluded. -/
def Question.Admits : (q : Question) → q.Answer → Prop
  | .choice _, _ => True
  | .count _ bounds, n => bounds.least.toNat ≤ n ∧ ∀ most, bounds.most = some most → n ≤ most.toNat
  | .inclusion _ _, _ => True
  | .character set, c => set.excludes c = false

def Decision.Admissible (x : Decision) : Prop := x.question.Admits x.answer

variable {g : Grammar} {deferral : String → Option ρ}

mutual

/-- What is generated, with a tree for every reference. -/
def Derivation.forest {t : Term} : Derivation g deferral t → List (Node ρ)
  | .literal text => [.literal text]
  | .epsilon => []
  | .sequence parts => parts.forest
  | .alternatives _ _ taken => taken.forest
  | .optional _ _ _ parts => parts.forest
  | .repetition _ _ _ parts => parts.forest
  | .reference name _ _ inner => [.tree name inner.forest]
  | .deferred name payload _ => [.deferred name payload]
  | .only _ char _ => [.literal (String.singleton char)]
  | .any _ char _ => [.literal (String.singleton char)]

def Derivations.forest {ts : List Term} : Derivations g deferral ts → List (Node ρ)
  | .nil => []
  | .cons first rest => first.forest ++ rest.forest

end

mutual

/-- The text that is derived; deferred productions add nothing to it. -/
def Derivation.sentence {t : Term} : Derivation g deferral t → String
  | .literal text => text
  | .epsilon => ""
  | .sequence parts => parts.sentence
  | .alternatives _ _ taken => taken.sentence
  | .optional _ _ _ parts => parts.sentence
  | .repetition _ _ _ parts => parts.sentence
  | .reference _ _ _ inner => inner.sentence
  | .deferred _ _ _ => ""
  | .only _ char _ => String.singleton char
  | .any _ char _ => String.singleton char

def Derivations.sentence {ts : List Term} : Derivations g deferral ts → String
  | .nil => ""
  | .cons first rest => first.sentence ++ rest.sentence

end

mutual

/-- The decisions in the order in which they are made, below trees with the given names. -/
def Derivation.decisions (names : List String) {t : Term} : Derivation g deferral t → List Decision
  | .literal _ => []
  | .epsilon => []
  | .sequence parts => parts.decisions names
  | .alternatives options i taken =>
    ⟨names, .choice (eligible options), i⟩ :: taken.decisions names
  | .optional term probability yes parts =>
    ⟨names, .inclusion term probability, yes⟩ :: parts.decisions names
  | .repetition term bounds count parts =>
    ⟨names, .count term bounds, count⟩ :: parts.decisions names
  | .reference name _ _ inner => inner.decisions (names ++ [name])
  | .deferred _ _ _ => []
  | .only _ _ _ => []
  | .any set char _ => [⟨names, .character set, char⟩]

def Derivations.decisions (names : List String) {ts : List Term} :
    Derivations g deferral ts → List Decision
  | .nil => []
  | .cons first rest => first.decisions names ++ rest.decisions names

end

mutual

theorem Derivation.reads_forest {t : Term} (d : Derivation g (undeferred (ρ := ρ)) t)
    {expansion : List String → String → String → Prop} (names : List String) :
    Node.ReadsAll expansion names d.forest d.sentence :=
  match d with
  | .literal text => ⟨text, "", rfl, rfl, String.append_empty.symm⟩
  | .epsilon => rfl
  | .sequence parts => parts.reads_forest names
  | .alternatives _ _ taken => taken.reads_forest names
  | .optional _ _ _ parts => parts.reads_forest names
  | .repetition _ _ _ parts => parts.reads_forest names
  | .reference name _ _ inner =>
    ⟨inner.sentence, "", inner.reads_forest (names ++ [name]), rfl, String.append_empty.symm⟩
  | .only _ char _ => ⟨String.singleton char, "", rfl, rfl, String.append_empty.symm⟩
  | .any _ char _ => ⟨String.singleton char, "", rfl, rfl, String.append_empty.symm⟩

theorem Derivations.reads_forest {ts : List Term} (ds : Derivations g (undeferred (ρ := ρ)) ts)
    {expansion : List String → String → String → Prop} (names : List String) :
    Node.ReadsAll expansion names ds.forest ds.sentence :=
  match ds with
  | .nil => rfl
  | .cons first rest =>
    Node.readsAll_append.2 ⟨_, _, first.reads_forest names, rest.reads_forest names, rfl⟩

end

namespace Builder

variable {b : Builder ρ ω}

/-- Whether the policy of a builder gives the answer of a decision at some time. -/
def Answers (b : Builder ρ ω) (x : Decision) : Prop :=
  ∃ c w v, c.names = x.place ∧ b.policy c x.question w = (.value x.answer, v)

theorem ask_eq_value {q : Question} {a : q.Answer} {c c' : Cursor ρ} {w v : ω}
    (h : b.ask q (c, w) = (.value a, (c', v))) : c' = c ∧ b.policy c q w = (.value a, v) := by
  rw [ask_run, Prod.mk.injEq, Prod.mk.injEq] at h
  obtain ⟨ha, rfl, hv⟩ := h
  exact ⟨rfl, Prod.ext ha hv⟩

theorem edit_eq_value {change : Cursor ρ → Cursor ρ} {c c' : Cursor ρ} {w v : ω}
    (h : edit change (c, w) = (.value (), (c', v))) : c' = change c ∧ v = w := by
  rw [edit_run] at h
  cases h
  exact ⟨rfl, rfl⟩

/-- A recursion that succeeds after a question has gone on with an answer of the policy. -/
theorem answers_of_ask {q : Question} {go : q.Answer → Act (Cursor ρ × ω) Unit} {c c' : Cursor ρ}
    {w v : ω} (h : (b.ask q >>= go) (c, w) = (.value (), (c', v))) :
    ∃ a u, b.Answers ⟨c.names, q, a⟩ ∧ go a (c, u) = (.value (), (c', v)) := by
  obtain ⟨a, ⟨c₁, u⟩, hask, hgo⟩ := Act.bind_eq_value_iff.1 h
  obtain ⟨rfl, hpolicy⟩ := ask_eq_value hask
  exact ⟨a, u, ⟨c₁, w, u, rfl, hpolicy⟩, hgo⟩

/-- A recursion that succeeds inside a tree has entered and left it. -/
theorem generate_of_enter {name : String} {depth : Nat} {t : Term} {c c' : Cursor ρ} {w v : ω}
    (h : (edit (fun c => c.enter name) >>= fun _ => b.generate depth t >>= fun _ =>
      edit Cursor.leave) (c, w) = (.value (), (c', v))) :
    ∃ inner, b.generate depth t (c.enter name, w) = (.value (), (inner, v)) ∧ c' = inner.leave := by
  obtain ⟨_, ⟨c₁, u⟩, henter, hrest⟩ := Act.bind_eq_value_iff.1 h
  obtain ⟨rfl, rfl⟩ := edit_eq_value henter
  obtain ⟨_, ⟨inner, u'⟩, hinner, hleave⟩ := Act.bind_eq_value_iff.1 hrest
  obtain ⟨rfl, rfl⟩ := edit_eq_value hleave
  exact ⟨inner, hinner, rfl⟩

theorem exists_derivations {depth : Nat}
    (each : ∀ {t c w c' v}, b.generate depth t (c, w) = (.value (), (c', v)) →
      ∃ d : Derivation b.grammar b.deferral t, c' = c.grow d.forest ∧
        ∀ x ∈ d.decisions c.names, b.Answers x)
    {ts : List Term} {c c' : Cursor ρ} {w v : ω}
    (h : ts.forM (b.generate depth) (c, w) = (.value (), (c', v))) :
    ∃ ds : Derivations b.grammar b.deferral ts, c' = c.grow ds.forest ∧
      ∀ x ∈ ds.decisions c.names, b.Answers x := by
  induction ts generalizing c w with
  | nil =>
    cases h
    exact ⟨.nil, rfl, by simp [Derivations.decisions]⟩
  | cons t ts ih =>
    rw [List.forM_eq_forM, List.forM_cons] at h
    obtain ⟨_, ⟨c₁, u⟩, hfirst, hrest⟩ := Act.bind_eq_value_iff.1 h
    obtain ⟨d, rfl, hd⟩ := each hfirst
    obtain ⟨ds, rfl, hds⟩ := ih hrest
    refine ⟨.cons d ds, (Cursor.grow_append c d.forest ds.forest).symm, fun x hx => ?_⟩
    rcases List.mem_append.1 hx with hx | hx
    · exact hd x hx
    · exact hds x (by simpa using hx)

/-- A successful recursion has followed a derivation, and its decisions are answers of the
policy. -/
theorem exists_derivation {depth : Nat} {t : Term} {c c' : Cursor ρ} {w v : ω}
    (h : b.generate depth t (c, w) = (.value (), (c', v))) :
    ∃ d : Derivation b.grammar b.deferral t, c' = c.grow d.forest ∧
      ∀ x ∈ d.decisions c.names, b.Answers x := by
  induction depth generalizing t c w c' v with
  | zero => cases h
  | succ depth ih =>
    simp only [generate] at h
    obtain ⟨_, _, hannounce, hgo⟩ := Act.bind_eq_value_iff.1 h
    cases hannounce
    cases t with
    | literal text =>
      obtain ⟨rfl, rfl⟩ := edit_eq_value hgo
      exact ⟨.literal text, rfl, by simp [Derivation.decisions]⟩
    | epsilon =>
      cases hgo
      exact ⟨.epsilon, rfl, by simp [Derivation.decisions]⟩
    | sequence terms =>
      obtain ⟨ds, hc, hds⟩ := exists_derivations ih hgo
      exact ⟨.sequence ds, hc, hds⟩
    | alternatives options =>
      obtain ⟨i, u, hi, htaken⟩ := answers_of_ask hgo
      obtain ⟨d, hc, hd⟩ := ih htaken
      exact ⟨.alternatives options i d, hc, List.forall_mem_cons.2 ⟨hi, hd⟩⟩
    | optional term p =>
      obtain ⟨yes, u, hyes, hparts⟩ := answers_of_ask hgo
      obtain ⟨ds, hc, hds⟩ := exists_derivations ih hparts
      exact ⟨.optional term p yes ds, hc, List.forall_mem_cons.2 ⟨hyes, hds⟩⟩
    | repetition term bounds =>
      obtain ⟨count, u, hcount, hparts⟩ := answers_of_ask hgo
      obtain ⟨ds, hc, hds⟩ := exists_derivations ih hparts
      exact ⟨.repetition term bounds count ds, hc, List.forall_mem_cons.2 ⟨hcount, hds⟩⟩
    | reference name =>
      cases hdeferral : b.deferral name with
      | some payload =>
        simp only [hdeferral] at hgo
        obtain ⟨rfl, rfl⟩ := edit_eq_value hgo
        exact ⟨.deferred name payload hdeferral, rfl, by simp [Derivation.decisions]⟩
      | none =>
        simp only [hdeferral] at hgo
        obtain ⟨definition, _, hdef, hgo⟩ := Act.bind_eq_value_iff.1 hgo
        obtain ⟨hdefined, rfl⟩ := Act.ofExcept_eq_value_iff.1 hdef
        obtain ⟨inner, hinner, rfl⟩ := generate_of_enter hgo
        obtain ⟨d, rfl, hd⟩ := ih hinner
        rw [Cursor.enter_names] at hd
        exact ⟨.reference name hdeferral hdefined d, Cursor.leave_grow_enter c name d.forest, hd⟩
    | characters set =>
      cases hm : set.meaning with
      | error why =>
        simp only [hm] at hgo
        cases hgo
      | ok meaning =>
        cases meaning with
        | only char =>
          simp only [hm] at hgo
          cases hgo
          exact ⟨.only set char hm, rfl, by simp [Derivation.decisions]⟩
        | any =>
          simp only [hm] at hgo
          obtain ⟨char, u, hchar, hwrite⟩ := answers_of_ask hgo
          obtain ⟨rfl, rfl⟩ := edit_eq_value hwrite
          exact ⟨.any set char hm, rfl, List.forall_mem_singleton.2 hchar⟩
        | endOfInput =>
          simp only [hm] at hgo
          cases hgo

/-- What a world has to be like for the policy to make given decisions, one after another, while
terms are written to the log in between. -/
structure Makes (b : Builder ρ ω) (ready : List Decision → ω → Prop) : Prop where
  traced : ∀ {later w} c t, ready later w → ready later (b.traced c t w)
  asked : ∀ {x later w c}, c.names = x.place → ready (x :: later) w →
    ∃ v, b.policy c x.question w = (.value x.answer, v) ∧ ready later v

/-- A step that asks a question goes on with the answer. -/
theorem Leads.asked {q : Question} {a : q.Answer} {s : State ρ} {next : q.Answer → Step ρ}
    {c : Cursor ρ} {u v w : ω} (step : b.step s w = (b.policy c q >>= fun a => pure (next a)) u)
    (h : b.policy c q u = (.value a, v)) : b.Leads (.next s) w (next a) v :=
  Leads.step (step.trans (Act.bind_value h))

variable {ready : List Decision → ω → Prop}

mutual

/-- Where the policy makes the decisions of a derivation, the steps from its term grow the document
by its forest. -/
theorem leads_derivation (makes : b.Makes ready) {t : Term}
    (d : Derivation b.grammar b.deferral t) (c : Cursor ρ) (rest : List Pending)
    (later : List Decision) {w : ω} (h : ready (d.decisions c.names ++ later) w) :
    ∃ v, b.Leads (.next ⟨c, t, rest⟩) w (resume rest (c.grow d.forest)) v ∧ ready later v :=
  match d with
  | .literal text => ⟨_, Leads.step (step_literal c rest w text), makes.traced c _ h⟩
  | .epsilon => ⟨_, Leads.step (step_epsilon c rest w), makes.traced c _ h⟩
  | .sequence parts => by
    obtain ⟨v, hparts, hv⟩ :=
      leads_derivations makes parts (.terms _) c rest later (makes.traced c (.sequence _) h)
    exact ⟨v, (Leads.step (step_sequence c rest w _)).trans hparts, hv⟩
  | .alternatives options i taken => by
    obtain ⟨u, hpolicy, hu⟩ := makes.asked rfl (makes.traced c (.alternatives options) h)
    obtain ⟨v, htaken, hv⟩ := leads_derivation makes taken c rest later hu
    exact ⟨v, (Leads.asked (step_alternatives c rest w options) hpolicy).trans htaken, hv⟩
  | .optional term p yes parts => by
    obtain ⟨u, hpolicy, hu⟩ := makes.asked rfl (makes.traced c (.optional term p) h)
    obtain ⟨v, hparts, hv⟩ := leads_derivations makes parts (.times term _) c rest later hu
    exact ⟨v, (Leads.asked (step_optional c rest w term p) hpolicy).trans hparts, hv⟩
  | .repetition term bounds count parts => by
    obtain ⟨u, hpolicy, hu⟩ := makes.asked rfl (makes.traced c (.repetition term bounds) h)
    obtain ⟨v, hparts, hv⟩ := leads_derivations makes parts (.times term count) c rest later hu
    exact ⟨v, (Leads.asked (step_repetition c rest w term bounds) hpolicy).trans hparts, hv⟩
  | .reference name kept defined inner => by
    have hready := makes.traced c (.reference name) h
    rw [Derivation.decisions, ← Cursor.enter_names] at hready
    obtain ⟨v, hinner, hv⟩ :=
      leads_derivation makes inner (c.enter name) (.leave :: rest) later hready
    refine ⟨v, (Leads.step (step_definition kept defined)).trans ?_, hv⟩
    rwa [resume, Cursor.leave_grow_enter] at hinner
  | .deferred name payload given => ⟨_, Leads.step (step_deferral given), makes.traced c _ h⟩
  | .only set char means => ⟨_, Leads.step (step_only means), makes.traced c _ h⟩
  | .any set char means => by
    obtain ⟨v, hpolicy, hv⟩ := makes.asked rfl (makes.traced c (.characters set) h)
    exact ⟨v, Leads.asked (step_any means) hpolicy, hv⟩

theorem leads_derivations (makes : b.Makes ready) {ts : List Term}
    (ds : Derivations b.grammar b.deferral ts) {p : Pending} (holds : p.Holds ts) (c : Cursor ρ)
    (rest : List Pending) (later : List Decision) {w : ω}
    (h : ready (ds.decisions c.names ++ later) w) :
    ∃ v, b.Leads (resume (p :: rest) c) w (resume rest (c.grow ds.forest)) v ∧ ready later v :=
  match ds with
  | .nil => by
    rw [holds.resume_nil]
    exact ⟨w, Leads.refl _ _, h⟩
  | .cons first others => by
    obtain ⟨q, hq, hresume⟩ := holds.resume_cons (ρ := ρ)
    rw [Derivations.decisions, List.append_assoc] at h
    obtain ⟨u, hfirst, hu⟩ := leads_derivation makes first c (q :: rest) _ h
    rw [← Cursor.grow_names c first.forest] at hu
    obtain ⟨v, hothers, hv⟩ := leads_derivations makes others hq _ rest later hu
    rw [hresume, Derivations.forest, Cursor.grow_append]
    exact ⟨v, hfirst.trans hothers, hv⟩

end

/-- Where building succeeds, the document has been grown by the forest of a derivation whose
decisions are answers of the policy. -/
theorem exists_derivation_of_build {budget : Nat} {t : Term} {c c' : Cursor ρ} {w v : ω}
    (h : b.build budget c t w = (.value c', v)) :
    ∃ d : Derivation b.grammar b.deferral t, c' = c.grow d.forest ∧
      ∀ x ∈ d.decisions c.names, b.Answers x := by
  have hgenerate := generate_of_done (build_eq_value_iff.1 h)
  exact exists_derivation hgenerate

/-- Building succeeds with all but a few budgets where the policy makes the decisions of a
derivation. -/
theorem build_of_derivation (makes : b.Makes ready) {t : Term} (d : Derivation b.grammar b.deferral t)
    (c : Cursor ρ) {w : ω} (h : ready (d.decisions c.names) w) :
    ∃ v k, ready [] v ∧ ∀ n, k ≤ n → b.build n c t w = (.value (c.grow d.forest), v) := by
  rw [← List.append_nil (d.decisions c.names)] at h
  obtain ⟨v, hleads, hv⟩ := leads_derivation makes d c [] [] h
  rw [resume] at hleads
  obtain ⟨k, hk⟩ := hleads.run_done
  exact ⟨v, k, hv, fun n hn => build_eq_value_iff.2 (hk n hn)⟩

end Builder

end Sentential
