import Sentential.Proofs.Edge
import Sentential.Proofs.Flawless

/-!
# Terms in reach

Which terms can come up when a term is generated: those in it, as far as they can be chosen, and
those in the definitions that they refer to. Whatever the policy answers, a run never leaves them:
the term of a state is in reach, and so is all that is pending.
-/
namespace Sentential

variable {ρ ω : Type}

namespace Grammar

/-- The terms that generating a term can come to. -/
inductive Reaches (g : Grammar) (t : Term) : Term → Prop
  | self : g.Reaches t t
  | sequence {terms : List Term} {u : Term} (outer : g.Reaches t (.sequence terms))
      (inside : u ∈ terms) : g.Reaches t u
  | alternative {options : List Choice} {option : Choice}
      (outer : g.Reaches t (.alternatives options)) (inside : option ∈ eligible options) :
      g.Reaches t option.item
  | optional {u : Term} {p : Float} (outer : g.Reaches t (.optional u p)) : g.Reaches t u
  | repetition {u : Term} {bounds : Bounds} (outer : g.Reaches t (.repetition u bounds)) :
      g.Reaches t u
  | reference {name : String} {definition : Term} (outer : g.Reaches t (.reference name))
      (defined : g.definition name = .ok definition) : g.Reaches t definition

variable {g : Grammar}

/-- In a sound grammar, nothing with a flaw is in reach of what has none. -/
theorem Reaches.flawless (sound : g.Sound) {t u : Term} (h : g.Reaches t u)
    (flawless : g.Flawless t) : g.Flawless u := by
  induction h with
  | self => exact flawless
  | sequence outer inside ih => exact ih.sequence inside
  | alternative outer inside ih => exact ih.alternatives (List.mem_filter.1 inside).1
  | optional outer ih => exact ih.optional
  | repetition outer ih => exact ih.repetition
  | reference outer defined ih => exact sound.flawless (production?_of_definition defined)

end Grammar

/-- The terms that a pending thing may still hand out. -/
def Pending.stock : Pending → List Term
  | .terms ts => ts
  | .times t _ => [t]
  | .leave => []

/-- The term of a state and all terms that are pending belong to some terms. -/
structure State.Within (s : State ρ) (allowed : Term → Prop) : Prop where
  term : allowed s.term
  pending : ∀ p ∈ s.pending, ∀ t ∈ p.stock, allowed t

def Step.Within (allowed : Term → Prop) : Step ρ → Prop
  | .next s => s.Within allowed
  | .done _ => True

theorem resume_within {allowed : Term → Prop} {pending : List Pending}
    (h : ∀ p ∈ pending, ∀ t ∈ p.stock, allowed t) (c : Cursor ρ) :
    (resume pending c).Within allowed := by
  fun_induction resume pending c with
  | case1 c => trivial
  | case2 c pending ih => exact ih (List.forall_mem_cons.1 h).2
  | case3 c t ts pending =>
    obtain ⟨hterms, hrest⟩ := List.forall_mem_cons.1 h
    obtain ⟨ht, hts⟩ := List.forall_mem_cons.1 hterms
    exact ⟨ht, List.forall_mem_cons.2 ⟨hts, hrest⟩⟩
  | case4 c t pending ih => exact ih (List.forall_mem_cons.1 h).2
  | case5 c t n pending =>
    obtain ⟨hterm, hrest⟩ := List.forall_mem_cons.1 h
    exact ⟨hterm _ List.mem_cons_self, List.forall_mem_cons.2 ⟨hterm, hrest⟩⟩
  | case6 pending c ih => exact ih (List.forall_mem_cons.1 h).2

namespace Builder

variable {b : Builder ρ ω}

theorem Moves.within {start : Term} {s : State ρ} {x : Step ρ}
    (h : b.Moves s.cursor s.pending s.term x) (hs : s.Within (b.grammar.Reaches start)) :
    x.Within (b.grammar.Reaches start) := by
  obtain ⟨c, t, rest⟩ := s
  obtain ⟨here, later⟩ := hs
  cases h with
  | literal text => exact resume_within later _
  | epsilon => exact resume_within later _
  | sequence terms =>
    exact resume_within (List.forall_mem_cons.2 ⟨fun u hu => here.sequence hu, later⟩) _
  | alternatives options i => exact ⟨here.alternative (List.getElem_mem _), later⟩
  | optional t p yes =>
    have hterm : ∀ u ∈ (Pending.times t (if yes then 1 else 0)).stock, b.grammar.Reaches start u :=
      List.forall_mem_singleton.2 here.optional
    exact resume_within (List.forall_mem_cons.2 ⟨hterm, later⟩) _
  | repetition t bounds count =>
    have hterm : ∀ u ∈ (Pending.times t count).stock, b.grammar.Reaches start u :=
      List.forall_mem_singleton.2 here.repetition
    exact resume_within (List.forall_mem_cons.2 ⟨hterm, later⟩) _
  | deferral given => exact resume_within later _
  | definition kept defined =>
    have hleave : ∀ u ∈ Pending.leave.stock, b.grammar.Reaches start u := fun _ hu => nomatch hu
    exact ⟨here.reference defined, List.forall_mem_cons.2 ⟨hleave, later⟩⟩
  | only means => exact resume_within later _
  | any means answered => exact resume_within later _

theorem Reachable.within {c : Cursor ρ} {t : Term} {s : State ρ} {w v : ω}
    (h : b.Reachable ⟨c, t, []⟩ w s v) : s.Within (b.grammar.Reaches t) := by
  induction h with
  | start => exact ⟨.self, fun _ hp => nomatch hp⟩
  | step before taken ih => exact (moves_of_step taken).within ih

theorem Reachable.trans {s t u : State ρ} {w v z : ω} (h : b.Reachable s w t v)
    (h' : b.Reachable t v u z) : b.Reachable s w u z := by
  induction h' with
  | start => exact h
  | step before taken ih => exact ih.step taken

theorem reachable_of_failed {n : Nat} {s t : State ρ} {w v : ω} {why : Fault}
    (h : b.run n s w = (.failed why t, v)) :
    ∃ u, b.Reachable s w t u ∧ b.step t u = (.failed why, v) := by
  induction n generalizing s w with
  | zero => cases h
  | succ n ih =>
    rw [run_succ] at h
    rcases hstep : b.step s w with ⟨(next | c) | cause | _, u⟩
    · simp only [hstep, proceed_next] at h
      obtain ⟨z, hreach, hfailed⟩ := ih h
      exact ⟨z, (Reachable.start.step hstep).trans hreach, hfailed⟩
    · simp [hstep] at h
    · simp only [hstep] at h
      cases h
      exact ⟨w, .start, hstep⟩
    · simp [hstep] at h

/-- A document that cannot be built fails at a state that has been reached. -/
theorem reachable_of_build_failed {n : Nat} {c : Cursor ρ} {t : Term} {w v : ω} {why : Fault}
    (h : b.build n c t w = (.failed why, v)) :
    ∃ s u, b.Reachable ⟨c, t, []⟩ w s u ∧ b.step s u = (.failed why, v) := by
  unfold build at h
  rcases hrun : b.run n ⟨c, t, []⟩ w with ⟨d | cause | s, u⟩
  · simp [hrun] at h
  · simp only [hrun] at h
    cases h
    obtain ⟨u', hreach, hfailed⟩ := reachable_of_failed hrun
    exact ⟨_, u', hreach, hfailed⟩
  · simp [hrun] at h

end Builder

end Sentential
