import Sentential.Generation.Builder

/-!
# Runs of a builder

What some steps of a run lead to, without their number. A point leads to another one when, whatever
number of steps is left there, some more steps from the first point end in the same way. A run that
has ended stays as it is when more steps are allowed, so a run that has not ended after some steps
had not ended after fewer.
-/
namespace Sentential

variable {ρ ω : Type}

def Ending.isStopped : Ending ρ → Bool
  | .stopped _ => true
  | _ => false

namespace Builder

variable {b : Builder ρ ω}

/-- The world when a term has been written to the log, just before it is generated. -/
def traced (b : Builder ρ ω) (c : Cursor ρ) (t : Term) (w : ω) : ω :=
  b.log.record .trace (fun _ => (State.mk c t []).display) w

section Step

/-! The step of each kind of term. -/

variable (c : Cursor ρ) (rest : List Pending) (w : ω)

theorem step_literal (text : String) : b.step ⟨c, .literal text, rest⟩ w =
    (.value (resume rest (c.write text)), b.traced c (.literal text) w) := rfl

theorem step_epsilon : b.step ⟨c, .epsilon, rest⟩ w =
    (.value (resume rest c), b.traced c .epsilon w) := rfl

theorem step_sequence (terms : List Term) : b.step ⟨c, .sequence terms, rest⟩ w =
    (.value (resume (.terms terms :: rest) c), b.traced c (.sequence terms) w) := rfl

theorem step_alternatives (options : List Choice) : b.step ⟨c, .alternatives options, rest⟩ w =
    (b.policy c (.choice (eligible options)) >>= fun i =>
      pure (.next ⟨c, (eligible options)[i].item, rest⟩)) (b.traced c (.alternatives options) w) :=
  rfl

theorem step_optional (t : Term) (p : Float) : b.step ⟨c, .optional t p, rest⟩ w =
    (b.policy c (.inclusion t p) >>= fun yes =>
      pure (resume (.times t (if yes then 1 else 0) :: rest) c)) (b.traced c (.optional t p) w) :=
  rfl

theorem step_repetition (t : Term) (bounds : Bounds) : b.step ⟨c, .repetition t bounds, rest⟩ w =
    (b.policy c (.count t bounds) >>= fun count =>
      pure (resume (.times t count :: rest) c)) (b.traced c (.repetition t bounds) w) := rfl

variable {c rest w} {name : String} {set : CharacterSet}

theorem step_deferral {payload : ρ} (h : b.deferral name = some payload) :
    b.step ⟨c, .reference name, rest⟩ w =
      (.value (resume rest (c.defer name payload)), b.traced c (.reference name) w) := by
  change b.advance c rest (.reference name) _ = _
  simp only [advance, refer, h]
  rfl

theorem step_definition {definition : Term} (h : b.deferral name = none)
    (h' : b.grammar.definition name = .ok definition) :
    b.step ⟨c, .reference name, rest⟩ w =
      (.value (.next ⟨c.enter name, definition, .leave :: rest⟩),
        b.traced c (.reference name) w) := by
  change b.advance c rest (.reference name) _ = _
  simp only [advance, refer, h, h']
  rfl

theorem step_undefined {why : Fault} (h : b.deferral name = none)
    (h' : b.grammar.definition name = .error why) :
    b.step ⟨c, .reference name, rest⟩ w = (.failed why, b.traced c (.reference name) w) := by
  change b.advance c rest (.reference name) _ = _
  simp only [advance, refer, h, h']
  rfl

theorem step_only {char : Char} (h : set.meaning = .ok (.only char)) :
    b.step ⟨c, .characters set, rest⟩ w =
      (.value (resume rest (c.writeChar char)), b.traced c (.characters set) w) := by
  change b.advance c rest (.characters set) _ = _
  simp only [advance, emit, h]
  rfl

theorem step_any (h : set.meaning = .ok .any) : b.step ⟨c, .characters set, rest⟩ w =
    (b.policy c (.character set) >>= fun char => pure (resume rest (c.writeChar char)))
      (b.traced c (.characters set) w) := by
  change b.advance c rest (.characters set) _ = _
  simp only [advance, emit, h]
  rfl

theorem step_endOfInput (h : set.meaning = .ok .endOfInput) :
    b.step ⟨c, .characters set, rest⟩ w = (.failed .endOfInput, b.traced c (.characters set) w) := by
  change b.advance c rest (.characters set) _ = _
  simp only [advance, emit, h]
  rfl

theorem step_unknownSet {why : Fault} (h : set.meaning = .error why) :
    b.step ⟨c, .characters set, rest⟩ w = (.failed why, b.traced c (.characters set) w) := by
  change b.advance c rest (.characters set) _ = _
  simp only [advance, emit, h]
  rfl

end Step

/-- What the step of a term goes on with. -/
inductive Moves (b : Builder ρ ω) (c : Cursor ρ) (rest : List Pending) : Term → Step ρ → Prop
  | literal (text : String) : Moves b c rest (.literal text) (resume rest (c.write text))
  | epsilon : Moves b c rest .epsilon (resume rest c)
  | sequence (terms : List Term) :
      Moves b c rest (.sequence terms) (resume (.terms terms :: rest) c)
  | alternatives (options : List Choice) (i : Fin (eligible options).length) :
      Moves b c rest (.alternatives options) (.next ⟨c, ((eligible options).get i).item, rest⟩)
  | optional (t : Term) (p : Float) (yes : Bool) :
      Moves b c rest (.optional t p) (resume (.times t (if yes then 1 else 0) :: rest) c)
  | repetition (t : Term) (bounds : Bounds) (count : Nat) :
      Moves b c rest (.repetition t bounds) (resume (.times t count :: rest) c)
  | deferral {name : String} {payload : ρ} (given : b.deferral name = some payload) :
      Moves b c rest (.reference name) (resume rest (c.defer name payload))
  | definition {name : String} {definition : Term} (kept : b.deferral name = none)
      (defined : b.grammar.definition name = .ok definition) :
      Moves b c rest (.reference name) (.next ⟨c.enter name, definition, .leave :: rest⟩)
  | only {set : CharacterSet} {char : Char} (means : set.meaning = .ok (.only char)) :
      Moves b c rest (.characters set) (resume rest (c.writeChar char))
  | any {set : CharacterSet} {char : Char} {w v : ω} (means : set.meaning = .ok .any)
      (answered : b.policy c (.character set) w = (.value char, v)) :
      Moves b c rest (.characters set) (resume rest (c.writeChar char))

/-- The question that the step of a term asks. -/
inductive Asks : Term → Question → Prop
  | alternatives (options : List Choice) : Asks (.alternatives options) (.choice (eligible options))
  | optional (t : Term) (p : Float) : Asks (.optional t p) (.inclusion t p)
  | repetition (t : Term) (bounds : Bounds) : Asks (.repetition t bounds) (.count t bounds)
  | any {set : CharacterSet} (means : set.meaning = .ok .any) :
      Asks (.characters set) (.character set)

/-- Why the step of a term fails. -/
inductive Refuses (b : Builder ρ ω) (c : Cursor ρ) : Term → Fault → Prop
  | unanswered {t : Term} {q : Question} {why : Fault} {w v : ω} (asks : Asks t q)
      (failed : b.policy c q w = (.failed why, v)) : Refuses b c t why
  | undefined {name : String} {why : Fault} (missing : b.grammar.definition name = .error why) :
      Refuses b c (.reference name) why
  | endOfInput {set : CharacterSet} (means : set.meaning = .ok .endOfInput) :
      Refuses b c (.characters set) .endOfInput
  | unknownSet {set : CharacterSet} {why : Fault} (unknown : set.meaning = .error why) :
      Refuses b c (.characters set) why

/-- What can become of the step of a term. -/
def Lands (b : Builder ρ ω) (c : Cursor ρ) (rest : List Pending) (t : Term) :
    Outcome (Step ρ) → Prop
  | .value x => b.Moves c rest t x
  | .failed why => b.Refuses c t why
  | .unfinished => ∃ q w v, Asks t q ∧ b.policy c q w = (.unfinished, v)

/-- A step that asks a question goes on as the answer says. -/
theorem lands_ask {c : Cursor ρ} {rest : List Pending} {t : Term} {q : Question} (asks : Asks t q)
    {next : q.Answer → Step ρ} {w v : ω}
    (step : b.step ⟨c, t, rest⟩ w = (b.policy c q >>= fun a => pure (next a)) v)
    (moves : ∀ a u, b.policy c q v = (.value a, u) → b.Moves c rest t (next a)) :
    b.Lands c rest t (b.step ⟨c, t, rest⟩ w).1 := by
  rw [step, Act.bind_run]
  rcases h : b.policy c q v with ⟨a | why | _, u⟩
  · exact moves a u h
  · exact .unanswered asks h
  · exact ⟨q, v, u, asks, h⟩

theorem lands (c : Cursor ρ) (rest : List Pending) (t : Term) (w : ω) :
    b.Lands c rest t (b.step ⟨c, t, rest⟩ w).1 := by
  cases t with
  | literal text => exact .literal text
  | epsilon => exact .epsilon
  | sequence terms => exact .sequence terms
  | alternatives options =>
    exact lands_ask (.alternatives options) (step_alternatives c rest w options) fun i _ _ =>
      .alternatives options i
  | optional t p =>
    exact lands_ask (.optional t p) (step_optional c rest w t p) fun yes _ _ => .optional t p yes
  | repetition t bounds =>
    exact lands_ask (.repetition t bounds) (step_repetition c rest w t bounds) fun count _ _ =>
      .repetition t bounds count
  | reference name =>
    cases hd : b.deferral name with
    | some payload =>
      rw [step_deferral hd]
      exact .deferral hd
    | none =>
      cases hdef : b.grammar.definition name with
      | error why =>
        rw [step_undefined hd hdef]
        exact .undefined hdef
      | ok definition =>
        rw [step_definition hd hdef]
        exact .definition hd hdef
  | characters set =>
    cases hm : set.meaning with
    | error why =>
      rw [step_unknownSet hm]
      exact .unknownSet hm
    | ok meaning =>
      cases meaning with
      | only char =>
        rw [step_only hm]
        exact .only hm
      | any => exact lands_ask (.any hm) (step_any hm) fun char _ h => .any hm h
      | endOfInput =>
        rw [step_endOfInput hm]
        exact .endOfInput hm

theorem moves_of_step {s : State ρ} {x : Step ρ} {w v : ω} (h : b.step s w = (.value x, v)) :
    b.Moves s.cursor s.pending s.term x := by
  have hlands := lands (b := b) s.cursor s.pending s.term w
  rwa [h] at hlands

theorem refuses_of_step {s : State ρ} {why : Fault} {w v : ω} (h : b.step s w = (.failed why, v)) :
    b.Refuses s.cursor s.term why := by
  have hlands := lands (b := b) s.cursor s.pending s.term w
  rwa [h] at hlands

/-- Goes on from what a step has led to. -/
def proceed (b : Builder ρ ω) : Nat → Step ρ → ω → Ending ρ × ω
  | n, .next s, w => b.run n s w
  | _, .done c, w => (.done c, w)

@[simp] theorem proceed_next (n : Nat) (s : State ρ) (w : ω) :
    b.proceed n (.next s) w = b.run n s w := by
  cases n <;> rfl

@[simp] theorem proceed_done (n : Nat) (c : Cursor ρ) (w : ω) :
    b.proceed n (.done c) w = (.done c, w) := by
  cases n <;> rfl

@[simp] theorem run_zero (s : State ρ) (w : ω) : b.run 0 s w = (.stopped s, w) := rfl

theorem run_succ (n : Nat) (s : State ρ) (w : ω) :
    b.run (n + 1) s w =
      match b.step s w with
      | (.value x, v) => b.proceed n x v
      | (.failed why, v) => (.failed why s, v)
      | (.unfinished, v) => (.stopped s, v) := by
  simp only [run]
  split <;> simp_all

/-- More steps change nothing about a run that has ended. -/
theorem run_add {n : Nat} {s : State ρ} {w : ω} (h : (b.run n s w).1.isStopped = false) (m : Nat) :
    b.run (n + m) s w = b.run n s w := by
  induction n generalizing s w with
  | zero => simp [Ending.isStopped] at h
  | succ n ih =>
    rw [Nat.add_right_comm, run_succ, run_succ]
    rw [run_succ] at h
    split
    · rename_i x v hs
      simp only [hs] at h
      cases x with
      | next t => simpa using ih (by simpa using h)
      | done c => simp
    · rfl
    · rfl

theorem build_eq_value_iff {n : Nat} {c c' : Cursor ρ} {t : Term} {w v : ω} :
    b.build n c t w = (.value c', v) ↔ b.run n ⟨c, t, []⟩ w = (.done c', v) := by
  unfold build
  rcases b.run n ⟨c, t, []⟩ w with ⟨d | why | s, u⟩ <;> simp

theorem build_eq_failed_iff {n : Nat} {c : Cursor ρ} {t : Term} {w v : ω} {why : Fault} :
    b.build n c t w = (.failed why, v) ↔ ∃ s, b.run n ⟨c, t, []⟩ w = (.failed why s, v) := by
  unfold build
  rcases b.run n ⟨c, t, []⟩ w with ⟨d | why | s, u⟩ <;> simp

/-- A larger budget changes nothing about a document that has been built. -/
theorem build_add {n : Nat} {c c' : Cursor ρ} {t : Term} {w v : ω}
    (h : b.build n c t w = (.value c', v)) (m : Nat) :
    b.build (n + m) c t w = (.value c', v) := by
  rw [build_eq_value_iff] at h ⊢
  rw [run_add (by rw [h]; rfl), h]

theorem define_eq_value_iff {n : Nat} {name : String} {c c' : Cursor ρ} {w v : ω} :
    b.define n name c w = (.value c', v) ↔
      ∃ definition, b.grammar.definition name = .ok definition ∧
        b.build n c definition w = (.value c', v) := by
  constructor
  · intro h
    obtain ⟨definition, _, hdefinition, hbuild⟩ := Act.bind_eq_value_iff.1 h
    obtain ⟨defined, rfl⟩ := Act.ofExcept_eq_value_iff.1 hdefinition
    exact ⟨definition, defined, hbuild⟩
  · rintro ⟨definition, defined, hbuild⟩
    have hdefinition := Act.ofExcept_eq_value_iff.2 ⟨defined, (rfl : w = w)⟩
    exact (Act.bind_value hdefinition).trans hbuild

/-- Some steps go from one point of a run to another. -/
def Leads (b : Builder ρ ω) (x : Step ρ) (w : ω) (y : Step ρ) (v : ω) : Prop :=
  ∃ k, ∀ n, b.proceed (n + k) x w = b.proceed n y v

/-- Some steps go from a point of a run to a fault, with the document at that cursor. -/
def Fails (b : Builder ρ ω) (x : Step ρ) (w : ω) (why : Fault) (c : Cursor ρ) (v : ω) : Prop :=
  ∃ k s, s.cursor = c ∧ ∀ n, b.proceed (n + k) x w = (.failed why s, v)

/-- A run has not ended after `n` steps. -/
def Stops (b : Builder ρ ω) (n : Nat) (x : Step ρ) (w : ω) : Prop :=
  (b.proceed n x w).1.isStopped = true

theorem Leads.refl (x : Step ρ) (w : ω) : b.Leads x w x w := ⟨0, fun _ => rfl⟩

theorem Leads.trans {x y z : Step ρ} {u v w : ω} (h : b.Leads x u y v) (h' : b.Leads y v z w) :
    b.Leads x u z w := by
  obtain ⟨k, hk⟩ := h
  obtain ⟨l, hl⟩ := h'
  exact ⟨l + k, fun n => by rw [← Nat.add_assoc, hk, hl]⟩

theorem Leads.step {s : State ρ} {x : Step ρ} {w v : ω} (h : b.step s w = (.value x, v)) :
    b.Leads (.next s) w x v :=
  ⟨1, fun n => by simp [run_succ, h]⟩

theorem Leads.fails {x y : Step ρ} {u v w : ω} {why : Fault} {c : Cursor ρ}
    (h : b.Leads x u y v) (h' : b.Fails y v why c w) : b.Fails x u why c w := by
  obtain ⟨k, hk⟩ := h
  obtain ⟨l, s, hs, hl⟩ := h'
  exact ⟨l + k, s, hs, fun n => by rw [← Nat.add_assoc, hk, hl]⟩

theorem Fails.step {s : State ρ} {w v : ω} {why : Fault} (h : b.step s w = (.failed why, v)) :
    b.Fails (.next s) w why s.cursor v :=
  ⟨1, s, rfl, fun n => by simp [run_succ, h]⟩

theorem Stops.le {m n : Nat} {x : Step ρ} {w : ω} (h : b.Stops n x w) (hm : m ≤ n) :
    b.Stops m x w := by
  cases x with
  | done c => simp [Stops, Ending.isStopped] at h
  | next s =>
    simp only [Stops, proceed_next] at h ⊢
    cases hc : (b.run m s w).1.isStopped with
    | true => rfl
    | false =>
      have hend := run_add hc (n - m)
      rw [Nat.add_sub_cancel' hm] at hend
      rw [hend, hc] at h
      exact h

theorem Leads.stops {n : Nat} {x y : Step ρ} {w v : ω} (h : b.Leads x w y v)
    (h' : b.Stops n y v) : b.Stops n x w := by
  obtain ⟨k, hk⟩ := h
  have hstop : b.Stops (n + k) x w := by simpa only [Stops, hk] using h'
  exact hstop.le (Nat.le_add_right n k)

theorem Stops.succ {n : Nat} {s : State ρ} {x : Step ρ} {w v : ω}
    (h : b.step s w = (.value x, v)) (h' : b.Stops n x v) : b.Stops (n + 1) (.next s) w := by
  simpa [Stops, run_succ, h] using h'

/-- A step that is never finished keeps the run from ending. -/
theorem Stops.of_unfinished {s : State ρ} {w v : ω} (h : b.step s w = (.unfinished, v)) (n : Nat) :
    b.Stops n (.next s) w := by
  cases n with
  | zero => rfl
  | succ n => simp [Stops, run_succ, h, Ending.isStopped]

/-- What a run from a point that leads to the end of the document ends with. -/
theorem Leads.run_done {s : State ρ} {c : Cursor ρ} {w v : ω} (h : b.Leads (.next s) w (.done c) v) :
    ∃ k, ∀ n, k ≤ n → b.run n s w = (.done c, v) := by
  obtain ⟨k, hk⟩ := h
  refine ⟨k, fun n hn => ?_⟩
  have hrun := hk (n - k)
  rwa [Nat.sub_add_cancel hn, proceed_next, proceed_done] at hrun

theorem Fails.run_failed {s : State ρ} {c : Cursor ρ} {why : Fault} {w v : ω}
    (h : b.Fails (.next s) w why c v) :
    ∃ k t, t.cursor = c ∧ ∀ n, k ≤ n → b.run n s w = (.failed why t, v) := by
  obtain ⟨k, t, ht, hk⟩ := h
  refine ⟨k, t, ht, fun n hn => ?_⟩
  have hrun := hk (n - k)
  rwa [Nat.sub_add_cancel hn, proceed_next] at hrun

end Builder

end Sentential
