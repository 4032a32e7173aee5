import Sentential.Generation.Generator
import Sentential.Policy.Chance
import Sentential.Proofs.Reach
import Sentential.Proofs.Traversal

/-!
# Visible faults

What generation can fail with when the grammar and the generator have been accepted. A production is
never missing, neither while a document is built nor in the expansions of replacements, unless the
policy or a replacement makes that fault up. Where chance decides and nothing is replaced, every
fault has its reason in a term that is in reach of the definition to start from.
-/
namespace Sentential

variable {ρ κ ω σ α β : Type}

/-- Whatever the world, the act only ends with allowed faults. -/
def Act.FailsOnly (x : Act ω α) (allowed : Fault → Prop) : Prop :=
  ∀ w v why, x w = (.failed why, v) → allowed why

namespace Act.FailsOnly

variable {allowed : Fault → Prop}

theorem pure (a : α) : (Pure.pure a : Act ω α).FailsOnly allowed := by
  intro w v why h
  cases h

theorem unfinished : (Act.unfinished : Act ω α).FailsOnly allowed := by
  intro w v why h
  cases h

theorem modify (f : ω → ω) : (Act.modify f).FailsOnly allowed := by
  intro w v why h
  cases h

theorem bind {x : Act ω α} {f : α → Act ω β} (hx : x.FailsOnly allowed)
    (hf : ∀ a, (f a).FailsOnly allowed) : (x >>= f).FailsOnly allowed := by
  intro w v why h
  rw [Act.bind_run] at h
  rcases hrun : x w with ⟨a | cause | _, u⟩
  · rw [hrun] at h
    exact hf a u v why h
  · rw [hrun] at h
    cases h
    exact hx w _ _ hrun
  · rw [hrun] at h
    cases h

theorem ofExcept_bind {x : Except Fault α} {a : α} {f : α → Act ω β} (hx : x = .ok a)
    (hf : (f a).FailsOnly allowed) : (Act.ofExcept x >>= f).FailsOnly allowed := by
  subst hx
  exact hf

theorem of_never {x : Act ω α} (h : x.FailsOnly fun _ => False) : x.FailsOnly allowed :=
  fun w v why hx => (h w v why hx).elim

end Act.FailsOnly

structure Sink.FailsOnly (sink : Sink ω) (allowed : Fault → Prop) : Prop where
  append : ∀ text, (sink.append text).FailsOnly allowed
  flush : sink.flush.FailsOnly allowed

theorem Sink.transcript_failsOnly (p : Part ω Transcript) (allowed : Fault → Prop) :
    (Sink.transcript p).FailsOnly allowed :=
  ⟨fun _ => .modify _, .pure ()⟩

/-- The replacement makes up no other faults: where its fallback and its sink only end with allowed
ones, so does the replacement. -/
def Replacement.Honest (r : Replacement κ ω) (allowed : Fault → Prop) : Prop :=
  ∀ i : Invocation κ ω, i.fallback.FailsOnly allowed → i.sink.FailsOnly allowed →
    (r.run i).FailsOnly allowed

/-- Whatever a fault is about, it is not that a production is missing. -/
def Fault.NoneMissing : Fault → Prop
  | .unknownProduction _ _ => False
  | _ => True

theorem CharacterSet.of_meaning_error {set : CharacterSet} {why : Fault}
    (h : set.meaning = .error why) :
    why = .unknownSet set.name ∧ Meaning.ofName? set.name = none := by
  unfold meaning at h
  split at h
  · cases h
  · rename_i hname
    cases h
    exact ⟨rfl, hname⟩

/-- The terms that generation can get stuck at, each with the fault that it ends with. -/
inductive Term.Explains : Term → Fault → Prop
  | noAlternatives {options : List Choice} (none : eligible options = []) :
      Explains (.alternatives options) .noAlternatives
  | endOfInput {set : CharacterSet} (means : set.meaning = .ok .endOfInput) :
      Explains (.characters set) .endOfInput
  | unknownSet {set : CharacterSet} (unknown : Meaning.ofName? set.name = none) :
      Explains (.characters set) (.unknownSet set.name)

/-- A fault has its reason in a term that is in reach. -/
def Grammar.Explained (g : Grammar) (t : Term) (why : Fault) : Prop :=
  ∃ u, g.Reaches t u ∧ u.Explains why

namespace Source

theorem biased_eq_none {s : Source σ} {options : List Choice} {g g' : σ}
    (h : s.biased options g = (none, g')) : options = [] := by
  cases options with
  | nil => rfl
  | cons option rest => simp [biased, Weighted.pick?, Weighted.last?] at h

theorem characterOf_ne_failed {s : Source σ} {set : CharacterSet} {fuel : Nat} {g g' : σ}
    {why : Fault} : s.characterOf set fuel g ≠ (.failed why, g') := by
  induction fuel generalizing g with
  | zero =>
    intro h
    cases h
  | succ fuel ih =>
    intro h
    simp only [characterOf] at h
    split at h
    · split at h
      · exact ih h
      · cases h
    · cases h

/-- Chance only fails to choose when there is nothing to choose from. -/
theorem choice_of_answer_failed {s : Source σ} {q : Question} {g g' : σ} {why : Fault}
    (h : s.answer q g = (.failed why, g')) : q = .choice [] ∧ why = .noAlternatives := by
  cases q with
  | choice options =>
    simp only [answer] at h
    split at h
    · cases h
    · rename_i hnone
      cases h
      exact ⟨congrArg Question.choice (biased_eq_none hnone), rfl⟩
  | count t bounds =>
    simp only [answer] at h
    split at h <;> cases h
  | inclusion t p => cases h
  | character set => exact (characterOf_ne_failed h).elim

end Source

theorem Policy.choice_of_chance_failed {p : Part ω σ} {source : Source σ} {c : Cursor ρ}
    {q : Question} {w v : ω} {why : Fault}
    (h : within p (.chance source) c q w = (.failed why, v)) :
    q = .choice [] ∧ why = .noAlternatives := by
  have hanswer : (source.answer q (p.get w)).1 = .failed why := congrArg Prod.fst h
  exact Source.choice_of_answer_failed (Prod.ext hanswer rfl)

namespace Node

variable {invoke : Spot ρ → Act ω Unit} {sink : Sink ω} {allowed : Fault → Prop}

mutual

theorem traverse_failsOnly (hinvoke : ∀ s, (invoke s).FailsOnly allowed)
    (hsink : sink.FailsOnly allowed) (n : Node ρ) (above : List (Node ρ)) :
    (n.traverse invoke sink above).FailsOnly allowed :=
  match n with
  | literal text => hsink.append text
  | deferred name payload => hinvoke _
  | tree name children => by
    rw [traverse]
    exact traverseAll_failsOnly hinvoke hsink children _

theorem traverseAll_failsOnly (hinvoke : ∀ s, (invoke s).FailsOnly allowed)
    (hsink : sink.FailsOnly allowed) (nodes above : List (Node ρ)) :
    (traverseAll invoke sink above nodes).FailsOnly allowed :=
  match nodes with
  | [] => .pure ()
  | n :: rest => by
    rw [traverseAll]
    exact (traverse_failsOnly hinvoke hsink n above).bind fun _ =>
      traverseAll_failsOnly hinvoke hsink rest above

end

end Node

namespace Builder

variable {b : Builder ρ ω} {allowed : Fault → Prop}

theorem build_failsOnly {c : Cursor ρ} {t : Term}
    (h : ∀ {s w v}, b.Reachable ⟨c, t, []⟩ w s v → (b.step s).FailsOnly allowed) (n : Nat) :
    (b.build n c t).FailsOnly allowed := by
  intro w v why hbuild
  obtain ⟨s, u, hreach, hstep⟩ := reachable_of_build_failed hbuild
  exact h hreach u v why hstep

theorem define_failsOnly {name : String} {t : Term} (defined : b.grammar.definition name = .ok t)
    {n : Nat} {c : Cursor ρ} (h : (b.build n c t).FailsOnly allowed) :
    (b.define n name c).FailsOnly allowed := by
  exact .ofExcept_bind defined h

/-- In a run from a flawless term of a sound grammar, it is the policy that fails at a question, or
there is a reason in reach. No definition is missing. -/
theorem step_failed (sound : b.grammar.Sound) {c : Cursor ρ} {t : Term}
    (flawless : b.grammar.Flawless t) {s : State ρ} {w v : ω} (h : b.Reachable ⟨c, t, []⟩ w s v)
    {why : Fault} {u u' : ω} (hstep : b.step s u = (.failed why, u')) :
    (∃ q w v, b.grammar.Reaches t s.term ∧ Asks s.term q ∧
        b.policy s.cursor q w = (.failed why, v)) ∨
      b.grammar.Explained t why := by
  have hreach := h.within.term
  have hterm := hreach.flawless sound flawless
  obtain ⟨d, t', rest⟩ := s
  cases refuses_of_step hstep with
  | unanswered asks failed => exact .inl ⟨_, _, _, hreach, asks, failed⟩
  | undefined missing =>
    obtain ⟨definition, defined⟩ := Grammar.exists_definition hterm.hasProduction
    cases defined.symm.trans missing
  | endOfInput means => exact .inr ⟨_, hreach, .endOfInput means⟩
  | unknownSet unknown =>
    obtain ⟨rfl, hname⟩ := CharacterSet.of_meaning_error unknown
    exact .inr ⟨_, hreach, .unknownSet hname⟩

theorem step_noneMissing (sound : b.grammar.Sound)
    (policy : ∀ c q, (b.policy c q).FailsOnly Fault.NoneMissing) {c : Cursor ρ} {t : Term}
    (flawless : b.grammar.Flawless t) {s : State ρ} {w v : ω} (h : b.Reachable ⟨c, t, []⟩ w s v) :
    (b.step s).FailsOnly Fault.NoneMissing := by
  intro u u' why hstep
  rcases step_failed sound flawless h hstep with ⟨q, w, v, -, -, failed⟩ | ⟨reason, -, explains⟩
  · exact policy s.cursor q w v why failed
  · cases explains <;> trivial

/-- Where chance decides, a term in reach is the reason of every fault. -/
theorem step_explained (sound : b.grammar.Sound) {p : Part ω σ} {source : Source σ}
    (chance : b.policy = .within p (.chance source)) {c : Cursor ρ} {t : Term}
    (flawless : b.grammar.Flawless t) {s : State ρ} {w v : ω} (h : b.Reachable ⟨c, t, []⟩ w s v) :
    (b.step s).FailsOnly (b.grammar.Explained t) := by
  intro u u' why hstep
  rcases step_failed sound flawless h hstep with ⟨q, w, v, hreach, asks, failed⟩ | explained
  · rw [chance] at failed
    obtain ⟨hnone, rfl⟩ := Policy.choice_of_chance_failed failed
    refine ⟨s.term, hreach, ?_⟩
    generalize s.term = t' at asks
    cases asks with
    | alternatives options => exact .noAlternatives (Question.choice.inj hnone)
    | optional t p => cases hnone
    | repetition t bounds => cases hnone
    | any means => cases hnone
  · exact explained

end Builder

namespace Generator

variable {g : Generator κ ω} {allowed : Fault → Prop}

theorem mem_of_replacement? {name : String} {r : Replacement κ ω}
    (h : g.replacement? name = some r) : r ∈ g.replacements :=
  List.mem_reverse.1 (List.mem_of_find?_eq_some h)

theorem hasProduction_of_check {grammar : Grammar} {seen names : List String}
    (h : check grammar seen names = .ok ()) : ∀ name ∈ names, grammar.hasProduction name = true := by
  induction names generalizing seen with
  | nil => simp
  | cons name rest ih =>
    rw [check] at h
    by_cases hname : grammar.hasProduction name = true
    · simp only [hname, Bool.not_true, Bool.false_eq_true, if_false] at h
      split at h
      · cases h
      · exact List.forall_mem_cons.2 ⟨hname, ih h⟩
    · simp [hname] at h

theorem hasProduction_of_announce {w v : ω} (h : g.announce w = (.value (), v)) :
    ∀ r ∈ g.replacements, g.grammar.hasProduction r.production = true := by
  obtain ⟨_, _, hcheck, -⟩ := Act.bind_eq_value_iff.1 h
  obtain ⟨checked, -⟩ := Act.ofExcept_eq_value_iff.1 hcheck
  exact fun r hr => hasProduction_of_check checked _ (List.mem_map.2 ⟨r, hr, rfl⟩)

theorem document_failsOnly {start : String} {definition : Term}
    (defined : g.grammar.definition start = .ok definition)
    (contexts : g.context.FailsOnly allowed)
    (built : ∀ context,
      ((g.builder context).build g.budget (.root start) definition).FailsOnly allowed) :
    (g.document start).FailsOnly allowed :=
  .bind (.modify _) fun _ => .ofExcept_bind defined <| contexts.bind fun context =>
    (built context).bind fun _ => .bind (.modify _) fun _ => .pure _

/-- Invocations only fail as replacements and the expansions in them do, however deep these nest. -/
theorem invoke_failsOnly {sink : Sink ω} (hsink : sink.FailsOnly allowed)
    (honest : ∀ r ∈ g.replacements, r.Honest allowed)
    (expanded : ∀ r ∈ g.replacements, ∀ context c,
      ((g.builder context).define g.budget r.production c).FailsOnly allowed) (n : Nat)
    (s : Spot κ) : (g.invoke sink n s).FailsOnly allowed := by
  induction n generalizing s with
  | zero => exact .unfinished
  | succ n ih =>
    obtain ⟨node, above⟩ := s
    cases node with
    | tree name children => exact .pure ()
    | literal text => exact .pure ()
    | deferred name context =>
      simp only [invoke]
      cases hr : g.replacement? name with
      | none => exact .pure ()
      | some r =>
        have hmem := mem_of_replacement? hr
        refine honest r hmem _ ((expanded r hmem context _).bind fun c => ?_) hsink
        rw [Spot.write_eq_traverse]
        exact Node.traverse_failsOnly ih hsink c.document above

theorem write_failsOnly {sink : Sink ω} (hsink : sink.FailsOnly allowed)
    (honest : ∀ r ∈ g.replacements, r.Honest allowed)
    (expanded : ∀ r ∈ g.replacements, ∀ context c,
      ((g.builder context).define g.budget r.production c).FailsOnly allowed) (document : Node κ) :
    (g.write sink document).FailsOnly allowed := by
  rw [write, Spot.write_eq_traverse]
  exact Node.traverse_failsOnly (invoke_failsOnly hsink honest expanded g.budget) hsink document []

/-- No production is missing: not at a step of a document, not at a step of an expansion, and not
when a document is written, as long as the replacements and the sink do not make that fault up. -/
structure NoneMissing (g : Generator κ ω) (start : String) : Prop where
  steps : ∀ {definition}, g.grammar.definition start = .ok definition → ∀ {context s w v},
    (g.builder context).Reachable ⟨.root start, definition, []⟩ w s v →
      ((g.builder context).step s).FailsOnly Fault.NoneMissing
  document : (g.document start).FailsOnly Fault.NoneMissing
  expansionSteps : ∀ r ∈ g.replacements, ∀ {definition},
    g.grammar.definition r.production = .ok definition → ∀ {context c s w v},
      (g.builder context).Reachable ⟨c, definition, []⟩ w s v →
        ((g.builder context).step s).FailsOnly Fault.NoneMissing
  expansions : ∀ r ∈ g.replacements, ∀ context c,
    ((g.builder context).define g.budget r.production c).FailsOnly Fault.NoneMissing
  writing : ∀ {sink : Sink ω}, sink.FailsOnly Fault.NoneMissing →
    (∀ r ∈ g.replacements, r.Honest Fault.NoneMissing) →
      ∀ document, (g.write sink document).FailsOnly Fault.NoneMissing

theorem noneMissing (sound : g.grammar.Sound) {w v : ω} (announced : g.announce w = (.value (), v))
    (contexts : g.context.FailsOnly fun _ => False)
    (policy : ∀ c q, (g.policy c q).FailsOnly Fault.NoneMissing) {start : String}
    (declared : g.grammar.hasProduction start = true) : g.NoneMissing start := by
  have steps : ∀ {name definition}, g.grammar.definition name = .ok definition →
      ∀ {context c s w v}, (g.builder context).Reachable ⟨c, definition, []⟩ w s v →
        ((g.builder context).step s).FailsOnly Fault.NoneMissing := by
    intro name definition defined context c s w v hreach
    have flawless := sound.flawless (Grammar.production?_of_definition defined)
    exact Builder.step_noneMissing sound policy flawless hreach
  have expanded : ∀ r ∈ g.replacements, ∀ context c,
      ((g.builder context).define g.budget r.production c).FailsOnly Fault.NoneMissing := by
    intro r hr context c
    obtain ⟨definition, defined⟩ :=
      Grammar.exists_definition (hasProduction_of_announce announced r hr)
    exact Builder.define_failsOnly defined (Builder.build_failsOnly (steps defined) g.budget)
  obtain ⟨definition, defined⟩ := Grammar.exists_definition declared
  refine ⟨fun h => steps h, ?_, fun r hr _ h => steps h, expanded,
    fun hsink honest => write_failsOnly hsink honest expanded⟩
  exact document_failsOnly defined contexts.of_never fun context =>
    Builder.build_failsOnly (steps defined) g.budget

/-- Where chance decides and nothing is replaced, documents only fail for reasons in reach of the
definition that they start from, and so do their texts where the sink takes everything. -/
theorem sentence_explained (sound : g.grammar.Sound) (contexts : g.context.FailsOnly fun _ => False)
    {p : Part ω σ} {source : Source σ} (chance : g.policy = .within p (.chance source))
    (plain : g.replacements = []) {start : String} {definition : Term}
    (defined : g.grammar.definition start = .ok definition) {sink : Sink ω}
    (hsink : sink.FailsOnly fun _ => False) :
    (g.document start).FailsOnly (g.grammar.Explained definition) ∧
      (g.sentence start sink).FailsOnly (g.grammar.Explained definition) := by
  have flawless := sound.flawless (Grammar.production?_of_definition defined)
  have hdocument : (g.document start).FailsOnly (g.grammar.Explained definition) :=
    document_failsOnly defined contexts.of_never fun context =>
      Builder.build_failsOnly (Builder.step_explained sound chance flawless) g.budget
  refine ⟨hdocument, hdocument.bind fun document => .bind ?_ fun _ => hsink.flush.of_never⟩
  have hwrite : (g.write sink document).FailsOnly fun _ => False := by
    refine write_failsOnly hsink (fun r hr => ?_) (fun r hr => ?_) document
    · rw [plain] at hr
      cases hr
    · rw [plain] at hr
      cases hr
  exact hwrite.of_never

/-- An accepted generator of an accepted grammar, started at a production that exists, never fails
because a production is missing, unless its policy does. Where chance decides and nothing is
replaced, it fails with no alternatives, the end of input or an unknown set only, and only when a
term that is in reach of the definition to start from is such a choice or such a set. -/
theorem faults_visible (accepted : g.grammar.Accepted) {w v : ω}
    (announced : g.announce w = (.value (), v)) (contexts : g.context.FailsOnly fun _ => False)
    {start : String} (declared : g.grammar.hasProduction start = true) :
    ((∀ c q, (g.policy c q).FailsOnly Fault.NoneMissing) → g.NoneMissing start) ∧
      ∀ {σ : Type} (p : Part ω σ) (source : Source σ), g.policy = .within p (.chance source) →
        g.replacements = [] → ∃ definition, g.grammar.definition start = .ok definition ∧
          ∀ sink : Sink ω, sink.FailsOnly (fun _ => False) →
            (g.document start).FailsOnly (g.grammar.Explained definition) ∧
              (g.sentence start sink).FailsOnly (g.grammar.Explained definition) := by
  refine ⟨fun policy => noneMissing accepted.sound announced contexts policy declared,
    fun p source chance plain => ?_⟩
  obtain ⟨definition, defined⟩ := Grammar.exists_definition declared
  exact ⟨definition, defined, fun sink hsink =>
    sentence_explained accepted.sound contexts chance plain defined hsink⟩

/-- Two verses, which may be left to a replacement, and an end that cannot be generated. One of the
words to choose from is no word. -/
def song (replacements : List (Replacement Unit (Recorded × Transcript))) :
    Generator Unit (Recorded × Transcript) where
  grammar :=
    { language := "song"
      productions := (Catalogue.empty.insert "song"
        (.sequence [.reference "verse", .reference "verse", .characters ⟨"EOI", []⟩])).insert
          "verse" (.oneOf [.characters ⟨"EOF", []⟩, .literal "la"]) }
  policy := .within .fst (.chance Recorded.source)
  replacements
  context := pure ()
  log := .silent
  budget := 20

/-- The verses can be generated, also as expansions; then comes the end of input. -/
theorem faults_visible_song :
    (song [⟨"verse", fun i => i.fallback⟩]).NoneMissing "song" ∧
      ∃ v, (song []).sentence "song" (.transcript .snd) (.ofLists [0.5] [], .empty) =
          (.failed .endOfInput, v) ∧
        ∃ definition, (song []).grammar.definition "song" = .ok definition ∧
          (song []).grammar.Explained definition .endOfInput := by
  have accepted : (song []).grammar.Accepted := by
    have hbuilt : (Grammar.build "song" (song []).grammar.productions.entries).result =
        .ok (song []).grammar := by
      simp only [Grammar.build, Grammar.inspected, Grammar.inspect, Grammar.terms_eq]
      rfl
    exact .built hbuilt
  have announced (replacements) (h : check (song []).grammar []
      (replacements.map (·.production)) = .ok ()) :
      (song replacements).announce (.ofLists [] [], .empty) =
        (.value (), (.ofLists [] [], .empty)) := by
    have hcheck : Act.ofExcept (check (song []).grammar [] (replacements.map (·.production)))
        (.ofLists [] [], .empty) = (.value (), (Recorded.ofLists [] [], Transcript.empty)) := by
      rw [h]
      rfl
    exact Act.bind_value hcheck
  have policy : ∀ c q, ((song []).policy c q).FailsOnly Fault.NoneMissing := by
    intro c q w v why h
    obtain ⟨-, rfl⟩ := Policy.choice_of_chance_failed (c := c) h
    trivial
  have declared : (song []).grammar.hasProduction "song" = true := by rfl
  have hreplaced : (song [⟨"verse", fun i => i.fallback⟩]).NoneMissing "song" :=
    (faults_visible (g := song [⟨"verse", fun i => i.fallback⟩]) accepted (announced _ (by rfl))
      (.pure ()) declared).1 policy
  obtain ⟨definition, defined, explained⟩ := (faults_visible (g := song []) accepted
    (announced [] (by rfl)) (.pure ()) declared).2 .fst Recorded.source rfl rfl
  have failed : ∃ v, (song []).sentence "song" (.transcript .snd) (.ofLists [0.5] [], .empty) =
      (.failed .endOfInput, v) := ⟨_, by rfl⟩
  obtain ⟨v, failed⟩ := failed
  exact ⟨hreplaced, v, failed, definition, defined,
    (explained (.transcript .snd) (Sink.transcript_failsOnly .snd _)).2 _ _ _ failed⟩

end Generator

end Sentential
