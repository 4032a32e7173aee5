import Sentential.Proofs.Steps

/-!
# Building by recursion

The document of a term by plain recursion on what the term consists of, without pending work: the
elements of a sequence one after another, a repeated term as often as the policy says, a definition
inside a tree of its own. The depth bounds how deep calls may nest, and the world holds the document
that is being built next to the world of the policy, so both stay as they are after a fault.

The steps of a builder end exactly when the recursion does, and in the same way.
-/
namespace Sentential

variable {ρ ω : Type}

def edit (change : Cursor ρ → Cursor ρ) : Act (Cursor ρ × ω) Unit :=
  Act.modify fun v => (change v.1, v.2)

@[simp] theorem edit_run (change : Cursor ρ → Cursor ρ) (c : Cursor ρ) (w : ω) :
    edit change (c, w) = (.value (), (change c, w)) := rfl

/-- The terms that a pending thing still hands out. -/
inductive Pending.Holds : Pending → List Term → Prop
  | terms (ts : List Term) : Holds (.terms ts) ts
  | times (t : Term) (n : Nat) : Holds (.times t n) (List.replicate n t)

theorem Pending.Holds.resume_nil {p : Pending} (h : p.Holds []) (rest : List Pending)
    (c : Cursor ρ) : resume (p :: rest) c = resume rest c := by
  generalize hts : ([] : List Term) = ts at h
  cases h with
  | terms => rw [← hts, resume]
  | times t n =>
    obtain rfl : n = 0 := by simpa using congrArg List.length hts.symm
    rw [resume]

theorem Pending.Holds.resume_cons {p : Pending} {t : Term} {ts : List Term}
    (h : p.Holds (t :: ts)) : ∃ q : Pending, q.Holds ts ∧
      ∀ (rest : List Pending) (c : Cursor ρ),
        resume (p :: rest) c = .next ⟨c, t, q :: rest⟩ := by
  generalize hts : t :: ts = us at h
  cases h with
  | terms =>
    subst hts
    exact ⟨.terms ts, .terms ts, fun rest c => by rw [resume]⟩
  | times u n =>
    cases n with
    | zero => cases hts
    | succ n =>
      obtain ⟨rfl, rfl⟩ := List.cons.inj (hts.trans List.replicate_succ)
      exact ⟨.times t n, .times t n, fun rest c => by rw [resume]⟩

namespace Builder

variable {b : Builder ρ ω}

def ask (b : Builder ρ ω) (q : Question) : Act (Cursor ρ × ω) q.Answer := fun v =>
  Part.snd.perform (b.policy v.1 q) v

/-- Writes a term that is about to be generated to the log. -/
def announce (b : Builder ρ ω) (t : Term) : Act (Cursor ρ × ω) Unit :=
  Act.modify fun v => (v.1, b.traced v.1 t v.2)

def generate (b : Builder ρ ω) : Nat → Term → Act (Cursor ρ × ω) Unit
  | 0, _ => Act.unfinished
  | depth + 1, t => do
    b.announce t
    match t with
    | .literal text => edit fun c => c.write text
    | .epsilon => pure ()
    | .sequence terms => terms.forM (b.generate depth)
    | .alternatives options =>
      let i ← b.ask (.choice (eligible options))
      b.generate depth ((eligible options).get i).item
    | .optional term probability =>
      let yes ← b.ask (.inclusion term probability)
      (List.replicate (if yes then 1 else 0) term).forM (b.generate depth)
    | .repetition term bounds =>
      let count ← b.ask (.count term bounds)
      (List.replicate count term).forM (b.generate depth)
    | .reference name =>
      match b.deferral name with
      | some payload => edit fun c => c.defer name payload
      | none =>
        let definition ← Act.ofExcept (b.grammar.definition name)
        edit fun c => c.enter name
        b.generate depth definition
        edit Cursor.leave
    | .characters set =>
      let char ← match set.meaning with
        | .ok (.only char) => pure char
        | .ok .any => b.ask (.character set)
        | .ok .endOfInput => Act.fail .endOfInput
        | .error why => Act.fail why
      edit fun c => c.writeChar char

theorem ask_run (q : Question) (c : Cursor ρ) (w : ω) :
    b.ask q (c, w) = ((b.policy c q w).1, (c, (b.policy c q w).2)) := rfl

theorem announce_run (t : Term) (c : Cursor ρ) (w : ω) :
    b.announce t (c, w) = (.value (), (c, b.traced c t w)) := rfl

/-- How the steps from a point end or go on, given how the recursion ended: with the rest of the
work, with the same fault, or not within the depth. -/
def Follows (b : Builder ρ ω) (depth : Nat) (x : Step ρ) (w : ω) (rest : List Pending) :
    Outcome Unit × (Cursor ρ × ω) → Prop
  | (.value _, (c, v)) => b.Leads x w (resume rest c) v
  | (.failed why, (c, v)) => b.Fails x w why c v
  | (.unfinished, _) => b.Stops depth x w

theorem Leads.follows {depth : Nat} {x y : Step ρ} {w v : ω} {rest : List Pending}
    {r : Outcome Unit × (Cursor ρ × ω)} (h : b.Leads x w y v) (h' : b.Follows depth y v rest r) :
    b.Follows depth x w rest r := by
  obtain ⟨_ | _ | _, c, u⟩ := r
  · exact h.trans h'
  · exact h.fails h'
  · exact h.stops h'

theorem Follows.step {depth : Nat} {s : State ρ} {x : Step ρ} {w v : ω} {rest : List Pending}
    {r : Outcome Unit × (Cursor ρ × ω)} (h : b.step s w = (.value x, v))
    (h' : b.Follows depth x v rest r) : b.Follows (depth + 1) (.next s) w rest r := by
  obtain ⟨_ | _ | _, c, u⟩ := r
  · exact (Leads.step h).trans h'
  · exact (Leads.step h).fails h'
  · exact Stops.succ h h'

/-- Terms that are handed out one after another are followed when each of them is. -/
theorem follows_each {depth : Nat}
    (each : ∀ t c w rest, b.Follows depth (.next ⟨c, t, rest⟩) w rest (b.generate depth t (c, w)))
    {p : Pending} {ts : List Term} (h : p.Holds ts) (c : Cursor ρ) (w : ω) (rest : List Pending) :
    b.Follows depth (resume (p :: rest) c) w rest (ts.forM (b.generate depth) (c, w)) := by
  induction ts generalizing p c w with
  | nil =>
    rw [h.resume_nil]
    exact Leads.refl _ _
  | cons t ts ih =>
    obtain ⟨q, hq, hresume⟩ := h.resume_cons (ρ := ρ)
    rw [hresume]
    have first := each t c w (q :: rest)
    simp only [List.forM_eq_forM, List.forM_cons, Act.bind_run]
    split <;> rename_i heq <;> rw [heq] at first
    · exact first.follows (ih hq _ _)
    · exact first
    · exact first

theorem follows_ask {depth : Nat} {q : Question} {t : Term} {c : Cursor ρ} {w v : ω}
    {rest : List Pending} {next : q.Answer → Step ρ} {go : q.Answer → Act (Cursor ρ × ω) Unit}
    (step : b.step ⟨c, t, rest⟩ w = (b.policy c q >>= fun a => pure (next a)) v)
    (each : ∀ a u, b.Follows depth (next a) u rest (go a (c, u))) :
    b.Follows (depth + 1) (.next ⟨c, t, rest⟩) w rest ((b.ask q >>= go) (c, v)) := by
  rw [Act.bind_run] at step ⊢
  rw [ask_run]
  rcases h : b.policy c q v with ⟨_ | _ | _, u⟩
  · simp only [h, Act.pure_run] at step ⊢
    exact Follows.step step (each _ u)
  · simp only [h] at step ⊢
    exact Fails.step step
  · simp only [h] at step ⊢
    exact Stops.of_unfinished step _

/-- The steps from a term follow the recursion on it, whatever is pending. -/
theorem follows_generate (depth : Nat) (t : Term) (c : Cursor ρ) (w : ω) (rest : List Pending) :
    b.Follows depth (.next ⟨c, t, rest⟩) w rest (b.generate depth t (c, w)) := by
  induction depth generalizing t c w rest with
  | zero => rfl
  | succ depth ih =>
    cases t with
    | literal text => exact Follows.step (step_literal c rest w text) (Leads.refl _ _)
    | epsilon => exact Follows.step (step_epsilon c rest w) (Leads.refl _ _)
    | sequence terms =>
      exact Follows.step (step_sequence c rest w terms) (follows_each ih (.terms terms) c _ rest)
    | alternatives options =>
      exact follows_ask (step_alternatives c rest w options) fun i u => ih _ c u rest
    | optional term probability =>
      exact follows_ask (step_optional c rest w term probability) fun yes u =>
        follows_each ih (.times term _) c u rest
    | repetition term bounds =>
      exact follows_ask (step_repetition c rest w term bounds) fun count u =>
        follows_each ih (.times term count) c u rest
    | reference name =>
      simp only [generate, Act.bind_run, announce_run]
      cases hd : b.deferral name with
      | some payload => exact Follows.step (step_deferral hd) (Leads.refl _ _)
      | none =>
        cases hdef : b.grammar.definition name with
        | error why => exact Fails.step (step_undefined hd hdef)
        | ok definition =>
          refine Follows.step (step_definition hd hdef) ?_
          have inner := ih definition (c.enter name) (b.traced c (.reference name) w)
            (.leave :: rest)
          simp only [Act.ofExcept, Act.pure, edit_run, Act.bind_run]
          split <;> rename_i heq <;> rw [heq] at inner <;> exact inner
    | characters set =>
      simp only [generate]
      cases hm : set.meaning with
      | error why => exact Fails.step (step_unknownSet hm)
      | ok meaning =>
        cases meaning with
        | only char => exact Follows.step (step_only hm) (Leads.refl _ _)
        | any => exact follows_ask (step_any hm) fun char u => Leads.refl _ _
        | endOfInput => exact Fails.step (step_endOfInput hm)

/-- How a run has ended, given how the recursion ended. -/
def EndsLike : Outcome Unit × (Cursor ρ × ω) → Ending ρ × ω → Prop
  | (.value _, (c, v)), r => r = (.done c, v)
  | (.failed why, (c, v)), r => ∃ s : State ρ, s.cursor = c ∧ r = (.failed why s, v)
  | (.unfinished, _), _ => False

/-- A run that has ended took as many steps as are enough for the depth of the recursion. -/
theorem endsLike_generate {n : Nat} {t : Term} {c : Cursor ρ} {w : ω}
    (h : (b.run n ⟨c, t, []⟩ w).1.isStopped = false) :
    EndsLike (b.generate n t (c, w)) (b.run n ⟨c, t, []⟩ w) := by
  have follows := follows_generate (b := b) n t c w []
  rcases hg : b.generate n t (c, w) with ⟨_ | why | _, c', v⟩ <;> rw [hg] at follows
  · obtain ⟨k, hk⟩ := Leads.run_done follows
    exact (run_add h k).symm.trans (hk (n + k) (Nat.le_add_left k n))
  · obtain ⟨k, s, hs, hk⟩ := Fails.run_failed follows
    exact ⟨s, hs, (run_add h k).symm.trans (hk (n + k) (Nat.le_add_left k n))⟩
  · simp only [Follows, Stops, proceed_next] at follows
    rw [follows] at h
    cases h

theorem generate_of_done {n : Nat} {t : Term} {c c' : Cursor ρ} {w v : ω}
    (h : b.run n ⟨c, t, []⟩ w = (.done c', v)) : b.generate n t (c, w) = (.value (), (c', v)) := by
  have ends := endsLike_generate (b := b) (n := n) (t := t) (c := c) (w := w) (by rw [h]; rfl)
  rw [h] at ends
  rcases hg : b.generate n t (c, w) with ⟨_ | _ | _, d, u⟩ <;> rw [hg] at ends
  · cases ends
    rfl
  · obtain ⟨s, -, hs⟩ := ends
    cases hs
  · exact ends.elim

theorem generate_of_failed {n : Nat} {t : Term} {c : Cursor ρ} {why : Fault} {s : State ρ} {w v : ω}
    (h : b.run n ⟨c, t, []⟩ w = (.failed why s, v)) :
    b.generate n t (c, w) = (.failed why, (s.cursor, v)) := by
  have ends := endsLike_generate (b := b) (n := n) (t := t) (c := c) (w := w) (by rw [h]; rfl)
  rw [h] at ends
  rcases hg : b.generate n t (c, w) with ⟨_ | _ | _, d, u⟩ <;> rw [hg] at ends
  · cases ends
  · obtain ⟨s, rfl, hs⟩ := ends
    cases hs
    rfl
  · exact ends.elim

/-- The machine builds from a term what the recursion does: one of them finishes the document when
the other does, and one of them fails when the other does, with the same fault, the same document
and the same world. -/
def Refines (b : Builder ρ ω) (c : Cursor ρ) (t : Term) (w : ω) : Prop :=
  (∀ c' v, (∃ n, b.run n ⟨c, t, []⟩ w = (.done c', v)) ↔
    ∃ depth, b.generate depth t (c, w) = (.value (), (c', v))) ∧
  (∀ why c' v, (∃ n s, s.cursor = c' ∧ b.run n ⟨c, t, []⟩ w = (.failed why s, v)) ↔
    ∃ depth, b.generate depth t (c, w) = (.failed why, (c', v)))

theorem refines (b : Builder ρ ω) (c : Cursor ρ) (t : Term) (w : ω) : b.Refines c t w := by
  refine ⟨fun c' v => ⟨?_, ?_⟩, fun why c' v => ⟨?_, ?_⟩⟩
  · rintro ⟨n, hn⟩
    exact ⟨n, generate_of_done hn⟩
  · rintro ⟨depth, hg⟩
    have follows := follows_generate (b := b) depth t c w []
    rw [hg] at follows
    obtain ⟨k, hk⟩ := Leads.run_done follows
    exact ⟨k, hk k (Nat.le_refl k)⟩
  · rintro ⟨n, s, rfl, hn⟩
    exact ⟨n, generate_of_failed hn⟩
  · rintro ⟨depth, hg⟩
    have follows := follows_generate (b := b) depth t c w []
    rw [hg] at follows
    obtain ⟨k, s, hs, hk⟩ := Fails.run_failed follows
    exact ⟨k, s, hs, hk k (Nat.le_refl k)⟩

end Builder

/-- A question and where it came up. -/
structure Query (ρ : Type) where
  place : Cursor ρ
  question : Question

/-- Keeps a list of the questions in the order in which they came up, also those that the policy
fails to answer. -/
def Policy.recorded (policy : Policy ρ ω) : Policy ρ (ω × List (Query ρ)) := fun c q => do
  Act.modify fun v => (v.1, v.2 ++ [⟨c, q⟩])
  Part.fst.perform (policy c q)

namespace Builder

def recorded (b : Builder ρ ω) : Builder ρ (ω × List (Query ρ)) where
  grammar := b.grammar
  policy := b.policy.recorded
  deferral := b.deferral
  log := ⟨fun level text v => (b.log.record level text v.1, v.2)⟩

variable {b : Builder ρ ω}

/-- A step that does not ask anything leaves the list as it is. -/
theorem recorded_quiet {s : State ρ} {w v : ω} {o : Outcome (Step ρ)} {asked : List (Query ρ)}
    (h : b.step s w = (o, v)) (h' : b.recorded.step s (w, asked) = (o, (v, asked))) :
    ∃ later, b.recorded.step s (w, asked) =
      ((b.step s w).1, ((b.step s w).2, asked ++ later)) :=
  ⟨[], by rw [h, h', List.append_nil]⟩

theorem recorded_ask {q : Question} {next : q.Answer → Step ρ} {s : State ρ} {c : Cursor ρ}
    {w v : ω} {asked : List (Query ρ)}
    (h : b.step s w = (b.policy c q >>= fun a => pure (next a)) v)
    (h' : b.recorded.step s (w, asked) =
      (b.recorded.policy c q >>= fun a => pure (next a)) (v, asked)) :
    ∃ later, b.recorded.step s (w, asked) =
      ((b.step s w).1, ((b.step s w).2, asked ++ later)) := by
  have hasked : b.recorded.policy c q (v, asked) =
      ((b.policy c q v).1, ((b.policy c q v).2, asked ++ [⟨c, q⟩])) := rfl
  refine ⟨[⟨c, q⟩], ?_⟩
  rw [h, h', Act.bind_run, Act.bind_run, hasked]
  rcases b.policy c q v with ⟨_ | _ | _, u⟩ <;> rfl

theorem recorded_step (s : State ρ) (w : ω) (asked : List (Query ρ)) :
    ∃ later, b.recorded.step s (w, asked) =
      ((b.step s w).1, ((b.step s w).2, asked ++ later)) := by
  obtain ⟨c, t, rest⟩ := s
  cases t with
  | literal text => exact recorded_quiet (step_literal c rest w text) rfl
  | epsilon => exact recorded_quiet (step_epsilon c rest w) rfl
  | sequence terms => exact recorded_quiet (step_sequence c rest w terms) rfl
  | alternatives options => exact recorded_ask (step_alternatives c rest w options) rfl
  | optional t p => exact recorded_ask (step_optional c rest w t p) rfl
  | repetition t bounds => exact recorded_ask (step_repetition c rest w t bounds) rfl
  | reference name =>
    cases hd : b.deferral name with
    | some payload => exact recorded_quiet (step_deferral hd) (step_deferral hd)
    | none =>
      cases hdef : b.grammar.definition name with
      | error why => exact recorded_quiet (step_undefined hd hdef) (step_undefined hd hdef)
      | ok definition => exact recorded_quiet (step_definition hd hdef) (step_definition hd hdef)
  | characters set =>
    cases hm : set.meaning with
    | error why => exact recorded_quiet (step_unknownSet hm) (step_unknownSet hm)
    | ok meaning =>
      cases meaning with
      | only char => exact recorded_quiet (step_only hm) (step_only hm)
      | any => exact recorded_ask (step_any hm) (step_any hm)
      | endOfInput => exact recorded_quiet (step_endOfInput hm) (step_endOfInput hm)

/-- Keeping the list changes nothing about a run. -/
theorem recorded_run (n : Nat) (s : State ρ) (w : ω) (asked : List (Query ρ)) :
    ∃ later, b.recorded.run n s (w, asked) =
      ((b.run n s w).1, ((b.run n s w).2, asked ++ later)) := by
  induction n generalizing s w asked with
  | zero => exact ⟨[], by simp⟩
  | succ n ih =>
    obtain ⟨later, hstep⟩ := recorded_step (b := b) s w asked
    rw [run_succ, run_succ, hstep]
    rcases b.step s w with ⟨x | why | _, v⟩
    · cases x with
      | next t =>
        obtain ⟨more, hrun⟩ := ih t v (asked ++ later)
        exact ⟨later ++ more, by simpa using hrun⟩
      | done c => exact ⟨later, by simp⟩
    · exact ⟨later, rfl⟩
    · exact ⟨later, rfl⟩

/-- The machine of terms and pending work is the recursion. They end alike for every builder and
every world; since this holds of the builder that keeps a list of the questions, and keeping it
changes nothing about a run, they also ask the same questions at the same places in the same
order. -/
theorem run_refines_generate (b : Builder ρ ω) (c : Cursor ρ) (t : Term) (w : ω) :
    b.Refines c t w ∧ b.recorded.Refines c t (w, []) ∧
      ∀ n, ∃ asked, b.recorded.run n ⟨c, t, []⟩ (w, []) =
        ((b.run n ⟨c, t, []⟩ w).1, ((b.run n ⟨c, t, []⟩ w).2, asked)) := by
  refine ⟨refines b c t w, refines b.recorded c t (w, []), fun n => ?_⟩
  obtain ⟨asked, hrun⟩ := recorded_run (b := b) n ⟨c, t, []⟩ w []
  exact ⟨asked, by rw [hrun, List.nil_append]⟩

end Builder

end Sentential
