import Sentential.Proofs.Derivation

/-!
# Expansions

Where the path of a place and the question fix the answer, a production stands for the texts of the
derivations whose decisions are those answers. Which productions are deferred makes no difference to
the text: a derivation that leaves some of them out is completed by their expansions, and a complete
derivation can be cut where they stand. The paths at which questions come up stay the same, since an
expansion hangs below the place that it is for.
-/
namespace Sentential

variable {ρ κ : Type} {g : Grammar} {answer : String → (q : Question) → Outcome q.Answer}

/-- The answer of a decision is the one that its path and its question fix. -/
def Decision.Agrees (answer : String → (q : Question) → Outcome q.Answer) (x : Decision) : Prop :=
  answer (showPath x.place) x.question = .value x.answer

/-- What a production stands for below trees with the given names. -/
def Expands (ρ : Type) (g : Grammar) (answer : String → (q : Question) → Outcome q.Answer)
    (names : List String) (name x : String) : Prop :=
  ∃ d : Derivation g (undeferred (ρ := ρ)) (.reference name),
    (∀ y ∈ d.decisions names, y.Agrees answer) ∧ d.sentence = x

section Complete

variable {deferral : String → Option ρ} {expansion : List String → String → String → Prop}

/-- Deferred productions stand for what they expand to. -/
def Derivable (g : Grammar) (answer : String → (q : Question) → Outcome q.Answer)
    (deferral : String → Option ρ) (expansion : List String → String → String → Prop) : Prop :=
  ∀ names name x, deferral name ≠ none → expansion names name x → Expands ρ g answer names name x

mutual

/-- Derivations are completed by expansions of the productions that they leave out. -/
theorem Derivation.complete (each : Derivable g answer deferral expansion) {t : Term}
    (d : Derivation g deferral t) {names : List String} {x : String}
    (agrees : ∀ y ∈ d.decisions names, y.Agrees answer)
    (h : Node.ReadsAll expansion names d.forest x) :
    ∃ e : Derivation g (undeferred (ρ := ρ)) t,
      (∀ y ∈ e.decisions names, y.Agrees answer) ∧ e.sentence = x :=
  match d with
  | .literal text => ⟨.literal text, agrees, (Node.readsAll_singleton.1 h).symm⟩
  | .epsilon => ⟨.epsilon, agrees, h.symm⟩
  | .sequence parts => by
    obtain ⟨es, hes, hx⟩ := parts.complete each agrees h
    exact ⟨.sequence es, hes, hx⟩
  | .alternatives options i taken => by
    obtain ⟨hi, htaken⟩ := List.forall_mem_cons.1 agrees
    obtain ⟨e, he, hx⟩ := taken.complete each htaken h
    exact ⟨.alternatives options i e, List.forall_mem_cons.2 ⟨hi, he⟩, hx⟩
  | .optional term p yes parts => by
    obtain ⟨hyes, hparts⟩ := List.forall_mem_cons.1 agrees
    obtain ⟨es, hes, hx⟩ := parts.complete each hparts h
    exact ⟨.optional term p yes es, List.forall_mem_cons.2 ⟨hyes, hes⟩, hx⟩
  | .repetition term bounds count parts => by
    obtain ⟨hcount, hparts⟩ := List.forall_mem_cons.1 agrees
    obtain ⟨es, hes, hx⟩ := parts.complete each hparts h
    exact ⟨.repetition term bounds count es, List.forall_mem_cons.2 ⟨hcount, hes⟩, hx⟩
  | .reference name _ defined inner => by
    have hinner := Node.reads_tree.1 (Node.readsAll_singleton.1 h)
    obtain ⟨e, he, hx⟩ := inner.complete each agrees hinner
    exact ⟨.reference name rfl defined e, he, hx⟩
  | .deferred name payload given => by
    have hexpansion : expansion names name x := Node.readsAll_singleton.1 h
    exact each names name x (by rw [given]; exact Option.some_ne_none payload) hexpansion
  | .only set char means => ⟨.only set char means, agrees, (Node.readsAll_singleton.1 h).symm⟩
  | .any set char means => ⟨.any set char means, agrees, (Node.readsAll_singleton.1 h).symm⟩

theorem Derivations.complete (each : Derivable g answer deferral expansion) {ts : List Term}
    (ds : Derivations g deferral ts) {names : List String} {x : String}
    (agrees : ∀ y ∈ ds.decisions names, y.Agrees answer)
    (h : Node.ReadsAll expansion names ds.forest x) :
    ∃ es : Derivations g (undeferred (ρ := ρ)) ts,
      (∀ y ∈ es.decisions names, y.Agrees answer) ∧ es.sentence = x :=
  match ds with
  | .nil => ⟨.nil, agrees, h.symm⟩
  | .cons first rest => by
    obtain ⟨hfirst, hrest⟩ := List.forall_mem_append.1 agrees
    obtain ⟨y, z, hy, hz, rfl⟩ := Node.readsAll_append.1 h
    obtain ⟨e, he, rfl⟩ := first.complete each hfirst hy
    obtain ⟨es, hes, rfl⟩ := rest.complete each hrest hz
    exact ⟨.cons e es, List.forall_mem_append.2 ⟨he, hes⟩, rfl⟩

end

end Complete

section Cut

variable {deferrals : κ → String → Option ρ} {expansion : List String → String → String → Prop}

/-- Deferred productions expand to what their definitions have been cut to, if that is so for every
payload. -/
def Closed (g : Grammar) (answer : String → (q : Question) → Outcome q.Answer)
    (deferrals : κ → String → Option ρ) (expansion : List String → String → String → Prop) : Prop :=
  ∀ names name x definition, g.definition name = .ok definition →
    (∃ k, deferrals k name ≠ none) →
    (∀ k, ∃ e : Derivation g (deferrals k) definition,
      (∀ y ∈ e.decisions (names ++ [name]), y.Agrees answer) ∧
        Node.ReadsAll expansion (names ++ [name]) e.forest x) →
    expansion names name x

mutual

/-- Complete derivations are cut at the productions that are deferred, whatever the payload is. -/
theorem Derivation.cut (each : Closed g answer deferrals expansion) {t : Term}
    (d : Derivation g (undeferred (ρ := ρ)) t) {names : List String}
    (agrees : ∀ y ∈ d.decisions names, y.Agrees answer) (k : κ) :
    ∃ e : Derivation g (deferrals k) t, (∀ y ∈ e.decisions names, y.Agrees answer) ∧
      Node.ReadsAll expansion names e.forest d.sentence :=
  match d with
  | .literal text => ⟨.literal text, agrees, Node.readsAll_singleton.2 rfl⟩
  | .epsilon => ⟨.epsilon, agrees, rfl⟩
  | .sequence parts => by
    obtain ⟨es, hes, hx⟩ := parts.cut each agrees k
    exact ⟨.sequence es, hes, hx⟩
  | .alternatives options i taken => by
    obtain ⟨hi, htaken⟩ := List.forall_mem_cons.1 agrees
    obtain ⟨e, he, hx⟩ := taken.cut each htaken k
    exact ⟨.alternatives options i e, List.forall_mem_cons.2 ⟨hi, he⟩, hx⟩
  | .optional term p yes parts => by
    obtain ⟨hyes, hparts⟩ := List.forall_mem_cons.1 agrees
    obtain ⟨es, hes, hx⟩ := parts.cut each hparts k
    exact ⟨.optional term p yes es, List.forall_mem_cons.2 ⟨hyes, hes⟩, hx⟩
  | .repetition term bounds count parts => by
    obtain ⟨hcount, hparts⟩ := List.forall_mem_cons.1 agrees
    obtain ⟨es, hes, hx⟩ := parts.cut each hparts k
    exact ⟨.repetition term bounds count es, List.forall_mem_cons.2 ⟨hcount, hes⟩, hx⟩
  | .reference name _ defined inner => by
    cases hk : deferrals k name with
    | none =>
      obtain ⟨e, he, hx⟩ := inner.cut each agrees k
      exact ⟨.reference name hk defined e, he, Node.readsAll_singleton.2 (Node.reads_tree.2 hx)⟩
    | some payload =>
      have hexpansion : expansion names name inner.sentence :=
        each names name _ _ defined ⟨k, by rw [hk]; exact Option.some_ne_none payload⟩
          (inner.cut each agrees)
      exact ⟨.deferred name payload hk, fun _ hy => (nomatch hy),
        Node.readsAll_singleton.2 hexpansion⟩
  | .only set char means => ⟨.only set char means, agrees, Node.readsAll_singleton.2 rfl⟩
  | .any set char means => ⟨.any set char means, agrees, Node.readsAll_singleton.2 rfl⟩

theorem Derivations.cut (each : Closed g answer deferrals expansion) {ts : List Term}
    (ds : Derivations g (undeferred (ρ := ρ)) ts) {names : List String}
    (agrees : ∀ y ∈ ds.decisions names, y.Agrees answer) (k : κ) :
    ∃ es : Derivations g (deferrals k) ts, (∀ y ∈ es.decisions names, y.Agrees answer) ∧
      Node.ReadsAll expansion names es.forest ds.sentence :=
  match ds with
  | .nil => ⟨.nil, agrees, rfl⟩
  | .cons first rest => by
    obtain ⟨hfirst, hrest⟩ := List.forall_mem_append.1 agrees
    obtain ⟨e, he, hy⟩ := first.cut each hfirst k
    obtain ⟨es, hes, hz⟩ := rest.cut each hrest k
    exact ⟨.cons e es, List.forall_mem_append.2 ⟨he, hes⟩,
      Node.readsAll_append.2 ⟨_, _, hy, hz, rfl⟩⟩

end

end Cut

end Sentential
