import Sentential.Policy.Dialogue
import Sentential.Policy.Journal
import Sentential.Proofs.Derivation
import Sentential.Proofs.Draws

/-!
# Lawful policies

A policy is lawful when its answers keep within the grammar: counts within their bounds, as long as
the bounds make sense, and characters that are not excluded. Chance is lawful whatever its source
draws, since limited counts are numbers of successes in just enough trials and excluded characters
are drawn again. A dialogue is lawful since it checks what it reads, and a journal since it passes
answers on.
-/
namespace Sentential

variable {ρ ω σ : Type}

/-- Whether a question can come up in a sound grammar: the bounds of a count make sense, and a
character is only asked for where all characters are meant. -/
def Question.Sensible : Question → Prop
  | .count _ bounds => bounds.valid = true
  | .character set => set.meaning = .ok .any
  | _ => True

/-- What is true of every answer that the policy gives to a question that makes sense. -/
def Policy.Keeps (P : (q : Question) → q.Answer → Prop) (policy : Policy ρ ω) : Prop :=
  ∀ ⦃c q w a v⦄, q.Sensible → policy c q w = (.value a, v) → P q a

def Policy.Lawful (policy : Policy ρ ω) : Prop :=
  ∀ ⦃c q w a v⦄, q.Sensible → policy c q w = (.value a, v) → q.Admits a

theorem Bounds.least_le_most {b : Bounds} (h : b.valid = true) {most : UInt32}
    (hmost : b.most = some most) : b.least.toNat ≤ most.toNat := by
  have hb : b.least ≤ most := by
    simp [valid, hmost] at h
    exact h.2.1
  exact UInt32.le_iff_toNat_le.1 hb

namespace Source

variable (s : Source σ)

theorem exists_of_times {b : Bounds} {g g' : σ} {n : Nat} (hn : s.times b g = (some n, g')) :
    ∃ k, n = b.least.toNat + k ∧
      ∀ most, b.most = some most → k ≤ most.toNat - b.least.toNat := by
  cases hmost : b.most with
  | none =>
    obtain ⟨k, -, rfl, -⟩ := (s.times_eq_some_iff hmost).1 hn
    exact ⟨k, rfl, fun _ h => nomatch h⟩
  | some most =>
    rw [s.times_limited hmost] at hn
    cases hn
    refine ⟨_, rfl, fun most' h => ?_⟩
    cases h
    exact s.sample_le _ _ g

theorem times_admitted {b : Bounds} (h : b.valid = true) {g g' : σ} {n : Nat} (t : Term)
    (hn : s.times b g = (some n, g')) : (Question.count t b).Admits n := by
  obtain ⟨k, rfl, hk⟩ := s.exists_of_times hn
  refine ⟨Nat.le_add_right _ k, fun most hmost => ?_⟩
  have hlimit := hk most hmost
  have hle := Bounds.least_le_most h hmost
  change b.least.toNat + k ≤ most.toNat
  omega

theorem characterOf_admitted {set : CharacterSet} {fuel : Nat} {g g' : σ} {c : Char}
    (h : s.characterOf set fuel g = (.value c, g')) : set.excludes c = false := by
  induction fuel generalizing g with
  | zero => cases h
  | succ fuel ih =>
    simp only [characterOf] at h
    split at h
    · rename_i char g₁ hdraw
      by_cases hc : set.excludes char = true
      · rw [if_pos hc] at h
        exact ih h
      · rw [if_neg hc] at h
        cases h
        exact Bool.eq_false_iff.2 hc
    · cases h

end Source

namespace Question

/-- A line is only read as an answer that is admitted. -/
theorem admits_of_read {q : Question} {line : String} {a : q.Answer} (h : q.read line = .ok a) :
    q.Admits a := by
  cases q with
  | choice options => exact trivial
  | inclusion t p => exact trivial
  | count t b =>
    simp only [read, bind, Except.bind] at h
    split at h
    · cases h
    · split at h
      · rename_i hn
        cases h
        refine ⟨hn.1, fun most hmost => ?_⟩
        simpa [hmost] using hn.2
      · cases h
  | character set =>
    simp only [read, bind, Except.bind] at h
    split at h
    · cases h
    · split at h
      · rename_i hc
        cases h
        simp only [CharacterSet.contains, Bool.and_eq_true, Bool.not_eq_true'] at hc
        exact hc.1
      · cases h

end Question

namespace Dialogue

variable {q : Question} {default : Option q.Answer} {a : q.Answer}

theorem default_or_read_of_answer {line : String} (h : answer q default line = .ok a) :
    default = some a ∨ q.read line = .ok a := by
  unfold answer at h
  split at h
  · split at h
    · cases h
      exact .inl rfl
    · cases h
  · split at h
    · rename_i hread
      cases h
      exact .inr hread
    · cases h

/-- However many lines are rejected, the answer that is taken in the end is the default or what some
line reads as. -/
theorem default_or_read_of_ask {d : Dialogue ω} {path : String} {lines : Input} {w v : ω}
    (h : d.ask path q default lines w = (.value a, v)) :
    default = some a ∨ ∃ line, q.read line = .ok a := by
  induction lines generalizing w with
  | nil =>
    obtain ⟨_, _, -, h⟩ := Act.bind_eq_value_iff.1 h
    cases h
  | cons line rest ih =>
    cases line with
    | none =>
      obtain ⟨_, _, -, h⟩ := Act.bind_eq_value_iff.1 h
      obtain ⟨_, _, -, h⟩ := Act.bind_eq_value_iff.1 h
      cases h
    | some line =>
      obtain ⟨_, _, -, h⟩ := Act.bind_eq_value_iff.1 h
      obtain ⟨_, _, -, h⟩ := Act.bind_eq_value_iff.1 h
      cases hanswer : answer q default (Text.trim line) with
      | ok b =>
        simp only [hanswer] at h
        cases h
        exact (default_or_read_of_answer hanswer).imp_right fun h => ⟨_, h⟩
      | error why =>
        simp only [hanswer] at h
        obtain ⟨_, _, -, h⟩ := Act.bind_eq_value_iff.1 h
        exact ih h

end Dialogue

namespace Policy

theorem chance_lawful (s : Source σ) : Lawful (Policy.chance (ρ := ρ) s) := by
  intro c q g a g' hq h
  simp only [chance] at h
  cases q with
  | choice options => exact trivial
  | inclusion t p => exact trivial
  | count t b =>
    simp only [Source.answer] at h
    split at h
    · rename_i htimes
      cases h
      exact s.times_admitted hq t htimes
    · cases h
  | character set => exact s.characterOf_admitted h

theorem within_lawful (p : Part ω σ) {policy : Policy ρ σ} (h : policy.Lawful) :
    (within p policy).Lawful := by
  intro c q w a v hq ha
  simp only [within, Part.perform, Prod.mk.injEq] at ha
  exact h hq (Prod.ext ha.1 rfl)

section Keeps

variable {P : (q : Question) → q.Answer → Prop}

/-- A person keeps what is true of all that can be read and of the answers to fall back on. -/
theorem asking_keeps (d : Dialogue ω) {defaults : Option (Policy ρ ω)}
    (read : ∀ ⦃q line a⦄, q.read line = .ok a → P q a)
    (h : ∀ policy, defaults = some policy → policy.Keeps P) : (asking d defaults).Keeps P := by
  intro c q w a v hq ha
  cases defaults with
  | none =>
    rcases Dialogue.default_or_read_of_ask ha with hnone | ⟨line, hline⟩
    · cases hnone
    · exact read hline
  | some policy =>
    simp only [asking, map_eq_pure_bind] at ha
    obtain ⟨default, u, hdefault, hask⟩ := Act.bind_eq_value_iff.1 ha
    obtain ⟨x, _, hx, hsome⟩ := Act.bind_eq_value_iff.1 hdefault
    cases hsome
    rcases Dialogue.default_or_read_of_ask hask with hdefault | ⟨line, hline⟩
    · cases hdefault
      exact h policy rfl hq hx
    · exact read hline

theorem noted_keeps (sink : Sink ω) {policy : Policy ρ ω} (h : policy.Keeps P) :
    (noted sink policy).Keeps P := by
  intro c q w a v hq ha
  obtain ⟨b, u, hb, ha⟩ := Act.bind_eq_value_iff.1 ha
  obtain ⟨_, _, -, ha⟩ := Act.bind_eq_value_iff.1 ha
  obtain ⟨_, _, -, ha⟩ := Act.bind_eq_value_iff.1 ha
  cases ha
  exact h hq hb

end Keeps

/-- Chance in some part of the world, a person on their own or with the answers of such a policy to
fall back on, and journals of such policies, nested in any way. -/
inductive Standard : Policy ρ ω → Prop
  | chance {σ : Type} (p : Part ω σ) (s : Source σ) : Standard (within p (.chance s))
  | asking (d : Dialogue ω) : Standard (.asking d none)
  | fallingBack (d : Dialogue ω) {defaults : Policy ρ ω} (h : Standard defaults) :
      Standard (.asking d (some defaults))
  | noted (sink : Sink ω) {policy : Policy ρ ω} (h : Standard policy) :
      Standard (.noted sink policy)

theorem Standard.lawful {policy : Policy ρ ω} (h : policy.Standard) : policy.Lawful := by
  have read ⦃q line a⦄ (h : Question.read q line = .ok a) : q.Admits a := q.admits_of_read h
  induction h with
  | chance p s => exact within_lawful p (chance_lawful s)
  | asking d => exact asking_keeps d read (fun _ h => nomatch h)
  | fallingBack d h ih =>
    refine asking_keeps d read (fun policy hpolicy => ?_)
    cases hpolicy
    exact ih
  | noted sink h ih => exact noted_keeps sink ih

end Policy

end Sentential
