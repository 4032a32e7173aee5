import Sentential.Proofs.Documents
import Sentential.Proofs.Flawless
import Sentential.Proofs.Lawful

/-!
# Soundness

Whatever a lawful policy generates from a sound grammar has been derived from it. The policy answers
every question within the grammar as long as the question makes sense, and the questions do, since
they come from terms without flaws.
-/
namespace Sentential

variable {ρ ω κ : Type}

section Sensible

variable {g : Grammar} {deferral : String → Option ρ}

mutual

/-- The questions that come up in a sound grammar are sensible. -/
theorem Derivation.sensible (sound : g.Sound) {t : Term} (d : Derivation g deferral t)
    (flawless : g.Flawless t) (names : List String) :
    ∀ x ∈ d.decisions names, x.question.Sensible :=
  match d with
  | .literal _ => fun _ hx => nomatch hx
  | .epsilon => fun _ hx => nomatch hx
  | .sequence parts => parts.sensible sound (fun _ ht => flawless.sequence ht) names
  | .alternatives options i taken => by
    have hmem : (eligible options)[i] ∈ eligible options := List.getElem_mem _
    have hitem : g.Flawless (eligible options)[i].item :=
      flawless.alternatives ((List.mem_filter.1 hmem).1)
    exact List.forall_mem_cons.2 ⟨trivial, taken.sensible sound hitem names⟩
  | .optional term p yes parts => by
    have hparts : ∀ t ∈ List.replicate (if yes then 1 else 0) term, g.Flawless t := by
      intro t ht
      rw [List.eq_of_mem_replicate ht]
      exact flawless.optional
    exact List.forall_mem_cons.2 ⟨trivial, parts.sensible sound hparts names⟩
  | .repetition term bounds count parts => by
    have hparts : ∀ t ∈ List.replicate count term, g.Flawless t := by
      intro t ht
      rw [List.eq_of_mem_replicate ht]
      exact flawless.repetition
    exact List.forall_mem_cons.2 ⟨flawless.bounds_valid, parts.sensible sound hparts names⟩
  | .reference name _ defined inner => by
    have hinner := sound.flawless (Grammar.production?_of_definition defined)
    exact inner.sensible sound hinner (names ++ [name])
  | .deferred _ _ _ => fun _ hx => nomatch hx
  | .only _ _ _ => fun _ hx => nomatch hx
  | .any _ _ means => List.forall_mem_singleton.2 means

theorem Derivations.sensible (sound : g.Sound) {ts : List Term} (ds : Derivations g deferral ts)
    (flawless : ∀ t ∈ ts, g.Flawless t) (names : List String) :
    ∀ x ∈ ds.decisions names, x.question.Sensible :=
  match ds with
  | .nil => fun _ hx => nomatch hx
  | .cons first rest => by
    obtain ⟨hfirst, hrest⟩ := List.forall_mem_cons.1 flawless
    intro x hx
    rcases List.mem_append.1 hx with hx | hx
    · exact first.sensible sound hfirst names x hx
    · exact rest.sensible sound hrest names x hx

end

end Sensible

/-- What is true of all answers of a policy is true of the decisions that it makes when it builds
something from a flawless term. -/
theorem Builder.exists_kept_of_build {b : Builder ρ ω} (sound : b.grammar.Sound)
    {P : (q : Question) → q.Answer → Prop} (keeps : b.policy.Keeps P) {budget : Nat} {t : Term}
    (flawless : b.grammar.Flawless t) {c c' : Cursor ρ} {w v : ω}
    (h : b.build budget c t w = (.value c', v)) :
    ∃ d : Derivation b.grammar b.deferral t, c' = c.grow d.forest ∧
      ∀ x ∈ d.decisions c.names, P x.question x.answer := by
  obtain ⟨d, hc, hd⟩ := exists_derivation_of_build h
  refine ⟨d, hc, fun x hx => ?_⟩
  obtain ⟨c₁, u, u', -, hanswer⟩ := hd x hx
  exact keeps (d.sensible sound flawless c.names x hx) hanswer

/-- A lawful policy that builds something from a flawless term has made admissible decisions. -/
theorem Builder.exists_admissible_of_build {b : Builder ρ ω} (sound : b.grammar.Sound)
    (lawful : b.policy.Lawful) {budget : Nat} {t : Term} (flawless : b.grammar.Flawless t)
    {c c' : Cursor ρ} {w v : ω} (h : b.build budget c t w = (.value c', v)) :
    ∃ d : Derivation b.grammar b.deferral t, c' = c.grow d.forest ∧
      ∀ x ∈ d.decisions c.names, x.Admissible :=
  exists_kept_of_build sound lawful flawless h

namespace Generator

variable {g : Generator κ ω}

theorem builder_deferral (h : g.replacements = []) (context : κ) :
    (g.builder context).deferral = undeferred := by
  funext name
  simp [builder, replacement?, h]

/-- Without replacements, a document that a standard policy makes from a sound grammar is the
coalesced tree of a derivation of its production, and its text is the sentence that is derived. -/
theorem exists_derivation_of_document (sound : g.grammar.Sound) (standard : g.policy.Standard)
    (plain : g.replacements = []) {start : String} {document : Node κ} {w v : ω}
    (h : g.document start w = (.value document, v)) :
    ∃ d : Derivation g.grammar (undeferred (ρ := κ)) (.reference start),
      (∀ x ∈ d.decisions [], x.Admissible) ∧ Node.coalesce d.forest = [document] ∧
      ∀ (p : Part ω Transcript) (w : ω), ∃ v, g.write (.transcript p) document w = (.value (), v) ∧
        Transcript.textAt p v = Transcript.textAt p w ++ d.sentence := by
  obtain ⟨definition, context, u, c, u', defined, -, hbuild, rfl, -⟩ := document_eq_value_iff.1 h
  have flawless := sound.flawless (Grammar.production?_of_definition defined)
  have hadmissible := Builder.exists_admissible_of_build sound standard.lawful flawless hbuild
  rw [builder_deferral plain] at hadmissible
  obtain ⟨inner, rfl, hinner⟩ := hadmissible
  let d : Derivation g.grammar (undeferred (ρ := κ)) (.reference start) :=
    .reference start rfl defined inner
  have hdocument : ((Cursor.root start).grow inner.forest).document =
      .tree start (Node.coalesce inner.forest) := Cursor.document_grow rfl rfl inner.forest
  refine ⟨d, hinner, ?_, fun p w => ?_⟩
  · rw [hdocument]
    exact Node.coalesce_tree start inner.forest []
  · have hreads : Node.Reads (fun _ _ _ => False) (Node.namesOf ([] : List (Node κ)))
        (.tree start (Node.coalesce inner.forest)) d.sentence := by
      rw [Node.reads_tree, Node.readsAll_coalesce]
      exact inner.reads_forest _
    obtain ⟨v, m, hv, hwrite⟩ :=
      Node.traverse_of_reads (fun _ => g.invoke (.transcript p) g.budget) id
        (fun _ _ _ h => h.elim) _ hreads w
    rw [hdocument, write, Spot.write_eq_traverse]
    exact ⟨v, hwrite m (Nat.le_refl m), hv⟩

end Generator

/-- A source that knows one character only. -/
def Source.steady (c : Char) : Source Unit where
  unit g := (0, g)
  index _ g := (.ok 0, g)
  count least _ g := (.ok least, g)
  character g := (.ok c, g)

/-- Asks for two or three characters other than `b`, with one to fall back on, and keeps a journal
where the prompts go. -/
def Generator.cheer : Generator Unit (Input × Transcript) where
  grammar :=
    { language := "cheer"
      productions :=
        (Catalogue.empty.insert "cheer" (.sequence [.reference "vowels", .literal "!"])).insert
          "vowels" (.repeated (.characters (.anyExcept ['b'])) 2 (some 3)) }
  policy :=
    .noted (.transcript .snd) (.asking ⟨.fst, .transcript .snd, .silent⟩ (some (.within
      ⟨fun _ => (), fun _ w => w, by simp, by simp, by simp⟩ (.chance (.steady 'a')))))
  replacements := []
  context := pure ()
  log := .silent
  budget := 20

theorem Generator.cheer_sound : cheer.grammar.Sound := by
  simp only [Grammar.Sound, Grammar.inspect, Grammar.terms_eq]
  rfl

/-- The default for the first character, and a character that is excluded before the second one. -/
theorem Generator.exists_derivation_of_cheer :
    ∃ document w, document = .tree "cheer" [.tree "vowels" [.literal "aé"], .literal "!"] ∧
      cheer.document "cheer" ([some " 2\n", some "\n", some "b\n", some "é\n"], .empty) =
        (.value document, w) ∧
      ∃ d : Derivation cheer.grammar (undeferred (ρ := Unit)) (.reference "cheer"),
        (∀ x ∈ d.decisions [], x.Admissible) ∧ Node.coalesce d.forest = [document] ∧
        ∃ v, cheer.write (.transcript .snd) document ([], .empty) = (.value (), v) ∧
          Transcript.textAt .snd v = d.sentence := by
  have standard : cheer.policy.Standard :=
    .noted _ (.fallingBack _ (.chance ⟨fun _ => (), fun _ w => w, _, _, _⟩ (.steady 'a')))
  have made : ∃ w, cheer.document "cheer"
      ([some " 2\n", some "\n", some "b\n", some "é\n"], .empty) =
      (.value (.tree "cheer" [.tree "vowels" [.literal "aé"], .literal "!"]), w) := ⟨_, by rfl⟩
  obtain ⟨w, made⟩ := made
  obtain ⟨d, hd, hforest, hwrite⟩ := exists_derivation_of_document cheer_sound standard rfl made
  obtain ⟨v, hv, htext⟩ := hwrite .snd ([], .empty)
  have hempty : Transcript.textAt .snd (([], .empty) : Input × Transcript) = "" := rfl
  rw [hempty, String.empty_append] at htext
  exact ⟨_, w, rfl, made, d, hd, hforest, v, hv, htext⟩

end Sentential
