import Mathlib.Data.List.Forall2
import Sentential.Proofs.Steps

/-!
# Builders in lockstep

Two builders whose grammars, policies and worlds are alike, although not the same. They go through
states that are alike, one step of the one for each step of the other, and so within any budget they
end alike. What being alike comes to is left open: it is enough that terms which are alike are of the
same kind with parts that are alike, an optional term and a repetition being of the same kind where
that is allowed, that documents stay alike when the same is done to them, and that the policies
answer alike.
-/
namespace Sentential

variable {ρ ω Ω α β γ δ : Type}

/-- Terms of the same kind, given when names and when parts of them are alike, and for which bounds
a repetition is alike an optional term. -/
inductive Term.SameKind (names : String → String → Prop) (switches : Bounds → Prop)
    (parts : Term → Term → Prop) : Term → Term → Prop
  | literal (text : String) : SameKind names switches parts (.literal text) (.literal text)
  | epsilon : SameKind names switches parts .epsilon .epsilon
  | sequence {ts us : List Term} (each : List.Forall₂ parts ts us) :
      SameKind names switches parts (.sequence ts) (.sequence us)
  | alternatives {options others : List Choice} (each : List.Forall₂ (fun c d : Choice =>
      c.weight = d.weight ∧ parts c.item d.item) options others) :
      SameKind names switches parts (.alternatives options) (.alternatives others)
  | optional {t u : Term} (each : parts t u) (p : Float) :
      SameKind names switches parts (.optional t p) (.optional u p)
  | counted {t u : Term} (each : parts t u) (p : Float) {bounds : Bounds} (h : switches bounds) :
      SameKind names switches parts (.optional t p) (.repetition u bounds)
  | repetition {t u : Term} (each : parts t u) (bounds : Bounds) :
      SameKind names switches parts (.repetition t bounds) (.repetition u bounds)
  | reference {m n : String} (name : names m n) :
      SameKind names switches parts (.reference m) (.reference n)
  | characters (set : CharacterSet) :
      SameKind names switches parts (.characters set) (.characters set)

/-- What is alike in two runs. Switches are the bounds of repetitions that are alike optional
terms. -/
structure Likeness (ρ ω Ω : Type) where
  names : String → String → Prop
  switches : Bounds → Prop
  terms : Term → Term → Prop
  cursors : Cursor ρ → Cursor ρ → Prop
  faults : Fault → Fault → Prop
  worlds : ω → Ω → Prop
  sameKind : ∀ {t u}, terms t u → t.SameKind names switches terms u
  write : ∀ {c d}, cursors c d → ∀ text, cursors (c.write text) (d.write text)
  enter : ∀ {c d}, cursors c d → ∀ {m n}, names m n → cursors (c.enter m) (d.enter n)
  leave : ∀ {c d}, cursors c d → cursors c.leave d.leave
  endOfInput : faults .endOfInput .endOfInput
  meaningless : ∀ {set : CharacterSet} {why}, set.meaning = .error why → faults why why

namespace Likeness

variable (L : Likeness ρ ω Ω)

/-- Pending things that hand out as many terms, one alike the other. -/
inductive Pendings : Pending → Pending → Prop
  | terms {ts us : List Term} (each : List.Forall₂ L.terms ts us) :
      Pendings (.terms ts) (.terms us)
  | times {t u : Term} (each : L.terms t u) (n : Nat) : Pendings (.times t n) (.times u n)
  | leave : Pendings .leave .leave

structure States (s t : State ρ) : Prop where
  cursor : L.cursors s.cursor t.cursor
  term : L.terms s.term t.term
  pending : List.Forall₂ L.Pendings s.pending t.pending

inductive Steps : Step ρ → Step ρ → Prop
  | next {s t : State ρ} (states : L.States s t) : Steps (.next s) (.next t)
  | done {c d : Cursor ρ} (cursors : L.cursors c d) : Steps (.done c) (.done d)

/-- How two acts end alike, given when their values are alike. -/
inductive Ends (values : α → β → Prop) : Outcome α × ω → Outcome β × Ω → Prop
  | value {a : α} {b : β} {w : ω} {v : Ω} (alike : values a b) (worlds : L.worlds w v) :
      Ends values (.value a, w) (.value b, v)
  | failed {why cause : Fault} {w : ω} {v : Ω} (alike : L.faults why cause)
      (worlds : L.worlds w v) : Ends values (.failed why, w) (.failed cause, v)
  | unfinished {w : ω} {v : Ω} (worlds : L.worlds w v) :
      Ends values (.unfinished, w) (.unfinished, v)

inductive Endings : Ending ρ × ω → Ending ρ × Ω → Prop
  | done {c d : Cursor ρ} {w : ω} {v : Ω} (cursors : L.cursors c d) (worlds : L.worlds w v) :
      Endings (.done c, w) (.done d, v)
  | failed {why cause : Fault} {s t : State ρ} {w : ω} {v : Ω} (alike : L.faults why cause)
      (worlds : L.worlds w v) : Endings (.failed why s, w) (.failed cause t, v)
  | stopped {s t : State ρ} {w : ω} {v : Ω} (worlds : L.worlds w v) :
      Endings (.stopped s, w) (.stopped t, v)

/-- Questions about terms that are alike, and when the answers to them come to the same. -/
inductive Questions : (q r : Question) → (q.Answer → r.Answer → Prop) → Prop
  | choice {options others : List Choice} (each : List.Forall₂ (fun c d : Choice =>
      c.weight = d.weight ∧ L.terms c.item d.item) options others) :
      Questions (.choice options) (.choice others) fun i j => i.val = j.val
  | count {t u : Term} (each : L.terms t u) (bounds : Bounds) :
      Questions (.count t bounds) (.count u bounds) Eq
  | inclusion {t u : Term} (each : L.terms t u) (p : Float) :
      Questions (.inclusion t p) (.inclusion u p) Eq
  | counted {t u : Term} (each : L.terms t u) (p : Float) {bounds : Bounds}
      (h : L.switches bounds) :
      Questions (.inclusion t p) (.count u bounds) fun yes n => (if yes then 1 else 0) = n
  | character (set : CharacterSet) : Questions (.character set) (.character set) Eq

/-- Productions with definitions that are alike, or without any. -/
inductive Definitions : Except Fault Term → Except Fault Term → Prop
  | ok {t u : Term} (each : L.terms t u) : Definitions (.ok t) (.ok u)
  | error {why cause : Fault} (alike : L.faults why cause) :
      Definitions (.error why) (.error cause)

/-- Builders that defer nothing and are alike otherwise. -/
structure Builders (b : Builder ρ ω) (c : Builder ρ Ω) : Prop where
  kept : b.deferral = fun _ => none
  kept' : c.deferral = fun _ => none
  definition : ∀ {m n}, L.names m n →
    L.Definitions (b.grammar.definition m) (c.grammar.definition n)
  policy : ∀ {q r same}, L.Questions q r same → ∀ {x y}, L.cursors x y → ∀ {w v}, L.worlds w v →
    L.Ends same (b.policy x q w) (c.policy y r v)
  traced : ∀ {w v}, L.worlds w v → ∀ x t y u, L.worlds (b.traced x t w) (c.traced y u v)

variable {L}

theorem Ends.bind {x : Act ω α} {y : Act Ω β} {f : α → Act ω γ} {g : β → Act Ω δ}
    {values : α → β → Prop} {results : γ → δ → Prop} {w : ω} {v : Ω}
    (h : L.Ends values (x w) (y v))
    (h' : ∀ {a b w v}, values a b → L.worlds w v → L.Ends results (f a w) (g b v)) :
    L.Ends results ((x >>= f) w) ((y >>= g) v) := by
  rw [Act.bind_run, Act.bind_run]
  revert h
  generalize x w = r
  generalize y v = r'
  intro h
  cases h with
  | value alike worlds => exact h' alike worlds
  | failed alike worlds => exact .failed alike worlds
  | unfinished worlds => exact .unfinished worlds

/-- Acts that end alike end with the same where only what is the same is alike. -/
theorem Ends.outcome_eq {r : Outcome α × ω} {r' : Outcome α × Ω} (h : L.Ends Eq r r')
    (faults : ∀ {why cause}, L.faults why cause → why = cause) : r.1 = r'.1 := by
  cases h with
  | value alike => exact congrArg Outcome.value alike
  | failed alike => exact congrArg Outcome.failed (faults alike)
  | unfinished => rfl

theorem isEndOfInput_eq {t u : Term} (h : L.terms t u) : t.isEndOfInput = u.isEndOfInput := by
  cases L.sameKind h <;> rfl

theorem eligible_alike {options others : List Choice} (each : List.Forall₂ (fun c d : Choice =>
      c.weight = d.weight ∧ L.terms c.item d.item) options others) :
    List.Forall₂ (fun c d : Choice => c.weight = d.weight ∧ L.terms c.item d.item)
      (eligible options) (eligible others) :=
  List.rel_filter
    (fun {c d} h => by simp only [Weighted.isEligible, h.1, isEndOfInput_eq h.2]) each

theorem resume_alike {ps qs : List Pending} (pending : List.Forall₂ L.Pendings ps qs)
    {c d : Cursor ρ} (cursors : L.cursors c d) : L.Steps (resume ps c) (resume qs d) := by
  induction pending generalizing c d with
  | nil =>
    rw [resume, resume]
    exact .done cursors
  | @cons p q ps qs first later ih =>
    cases first with
    | terms each =>
      cases each with
      | nil =>
        rw [resume, resume]
        exact ih cursors
      | cons ht hts =>
        rw [resume, resume]
        exact .next ⟨cursors, ht, .cons (.terms hts) later⟩
    | times each n =>
      cases n with
      | zero =>
        rw [resume, resume]
        exact ih cursors
      | succ n =>
        rw [resume, resume]
        exact .next ⟨cursors, each, .cons (.times each n) later⟩
    | leave =>
      rw [resume, resume]
      exact ih (L.leave cursors)

theorem Builders.asked {b : Builder ρ ω} {c : Builder ρ Ω} (h : L.Builders b c) {q r : Question}
    {same : q.Answer → r.Answer → Prop} (questions : L.Questions q r same) {x y : Cursor ρ}
    (cursors : L.cursors x y) {w : ω} {v : Ω} (worlds : L.worlds w v)
    {next : q.Answer → Step ρ} {next' : r.Answer → Step ρ}
    (each : ∀ i j, same i j → L.Steps (next i) (next' j)) :
    L.Ends L.Steps ((b.policy x q >>= fun i => pure (next i)) w)
      ((c.policy y r >>= fun j => pure (next' j)) v) :=
  (h.policy questions cursors worlds).bind fun hij worlds => .value (each _ _ hij) worlds

theorem Builders.step {b : Builder ρ ω} {c : Builder ρ Ω} (h : L.Builders b c) {s t : State ρ}
    (states : L.States s t) {w : ω} {v : Ω} (worlds : L.worlds w v) :
    L.Ends L.Steps (b.step s w) (c.step t v) := by
  obtain ⟨x, st, ps⟩ := s
  obtain ⟨y, tt, qs⟩ := t
  obtain ⟨cursors, terms, pending⟩ := states
  have cursors : L.cursors x y := cursors
  have pending : List.Forall₂ L.Pendings ps qs := pending
  have traced := h.traced worlds x st y tt
  have handed {p q : Pending} (first : L.Pendings p q) : L.Steps (resume (p :: ps) x)
      (resume (q :: qs) y) := resume_alike (.cons first pending) cursors
  have written (text : String) : L.Steps (resume ps (x.write text)) (resume qs (y.write text)) :=
    resume_alike pending (L.write cursors text)
  cases L.sameKind terms with
  | literal text =>
    rw [Builder.step_literal, Builder.step_literal]
    exact .value (written text) traced
  | epsilon =>
    rw [Builder.step_epsilon, Builder.step_epsilon]
    exact .value (resume_alike pending cursors) traced
  | sequence each =>
    rw [Builder.step_sequence, Builder.step_sequence]
    exact .value (handed (.terms each)) traced
  | alternatives each =>
    rw [Builder.step_alternatives, Builder.step_alternatives]
    have chosen := eligible_alike each
    refine h.asked (.choice chosen) cursors traced fun i j hij => .next ⟨cursors, ?_, pending⟩
    obtain ⟨-, hitem⟩ := (List.forall₂_iff_get.1 chosen).2 i i.isLt (hij ▸ j.isLt)
    have hj : (⟨i, hij ▸ j.isLt⟩ : Fin _) = j := Fin.ext hij
    rwa [hj] at hitem
  | optional each p =>
    rw [Builder.step_optional, Builder.step_optional]
    refine h.asked (.inclusion each p) cursors traced fun yes _ hyes => ?_
    rw [← hyes]
    exact handed (.times each _)
  | counted each p switches =>
    rw [Builder.step_optional, Builder.step_repetition]
    refine h.asked (.counted each p switches) cursors traced fun yes n hn => ?_
    rw [← hn]
    exact handed (.times each _)
  | repetition each bounds =>
    rw [Builder.step_repetition, Builder.step_repetition]
    refine h.asked (.count each bounds) cursors traced fun n _ hn => ?_
    rw [← hn]
    exact handed (.times each _)
  | @reference m n names =>
    have kept : b.deferral m = none := congrFun h.kept m
    have kept' : c.deferral n = none := congrFun h.kept' n
    have definitions := h.definition names
    revert definitions
    generalize hm : b.grammar.definition m = e
    generalize hn : c.grammar.definition n = e'
    rintro (⟨each⟩ | ⟨alike⟩)
    · rw [Builder.step_definition kept hm, Builder.step_definition kept' hn]
      exact .value (.next ⟨L.enter cursors names, each, .cons .leave pending⟩) traced
    · rw [Builder.step_undefined kept hm, Builder.step_undefined kept' hn]
      exact .failed alike traced
  | characters set =>
    cases hm : set.meaning with
    | error why =>
      rw [Builder.step_unknownSet hm, Builder.step_unknownSet hm]
      exact .failed (L.meaningless hm) traced
    | ok meaning =>
      cases meaning with
      | only char =>
        rw [Builder.step_only hm, Builder.step_only hm]
        exact .value (written _) traced
      | any =>
        rw [Builder.step_any hm, Builder.step_any hm]
        refine h.asked (.character set) cursors traced fun char _ hchar => ?_
        rw [← hchar]
        exact written _
      | endOfInput =>
        rw [Builder.step_endOfInput hm, Builder.step_endOfInput hm]
        exact .failed L.endOfInput traced

variable {b : Builder ρ ω} {c : Builder ρ Ω}

/-- As many steps of each builder as are allowed, from states that are alike. -/
theorem Builders.run (h : L.Builders b c) (n : Nat) {s t : State ρ} (states : L.States s t) {w : ω}
    {v : Ω} (worlds : L.worlds w v) : L.Endings (b.run n s w) (c.run n t v) := by
  induction n generalizing s t w v with
  | zero => exact .stopped worlds
  | succ n ih =>
    have step := h.step states worlds
    rw [Builder.run, Builder.run]
    revert step
    generalize b.step s w = r
    generalize c.step t v = r'
    intro step
    cases step with
    | value alike worlds =>
      cases alike with
      | next states => exact ih states worlds
      | done cursors => exact .done cursors worlds
    | failed alike worlds => exact .failed alike worlds
    | unfinished worlds => exact .stopped worlds

/-- Within any budget, terms that are alike are built alike. -/
theorem Builders.build (h : L.Builders b c) (n : Nat) {x y : Cursor ρ} (cursors : L.cursors x y)
    {t u : Term} (terms : L.terms t u) {w : ω} {v : Ω} (worlds : L.worlds w v) :
    L.Ends L.cursors (b.build n x t w) (c.build n y u v) := by
  have endings := h.run n (s := ⟨x, t, []⟩) (t := ⟨y, u, []⟩) ⟨cursors, terms, .nil⟩ worlds
  unfold Builder.build
  revert endings
  generalize b.run n ⟨x, t, []⟩ w = r
  generalize c.run n ⟨y, u, []⟩ v = r'
  intro endings
  cases endings with
  | done cursors worlds => exact .value cursors worlds
  | failed alike worlds => exact .failed alike worlds
  | stopped worlds => exact .unfinished worlds

theorem Builders.define (h : L.Builders b c) (n : Nat) {p q : String} (names : L.names p q)
    {x y : Cursor ρ} (cursors : L.cursors x y) {w : ω} {v : Ω} (worlds : L.worlds w v) :
    L.Ends L.cursors (b.define n p x w) (c.define n q y v) := by
  have definitions := h.definition names
  unfold Builder.define
  revert definitions
  generalize b.grammar.definition p = d
  generalize c.grammar.definition q = d'
  intro definitions
  cases definitions with
  | ok each => exact h.build n cursors each worlds
  | error alike => exact .failed alike worlds

end Likeness

end Sentential
